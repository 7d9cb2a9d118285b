import Mathlib.Data.List.Basic

/-!
# Equal digests

For a function `h` with results of one fixed length, equal digests mean equal strings unless two of the strings are a
collision of `h` (`eq_or_collision`); the same holds of lists of strings whose digests are written one after the other
(`eq_or_collision_of_flatMap`).
-/

namespace NuttxApps.Digest

open List

def Collision {α β : Type} (h : α → β) (l : List α) : Prop := ∃ s ∈ l, ∃ t ∈ l, s ≠ t ∧ h s = h t

variable {α β : Type} {h : α → List β} {l m : List α}

theorem Collision.mono {γ : Type} {h : α → γ} (hc : Collision h l) (hsub : ∀ s ∈ l, s ∈ m) : Collision h m := by
  obtain ⟨s, hs, t, ht, hne, heq⟩ := hc
  exact ⟨s, hsub s hs, t, hsub t ht, hne, heq⟩

theorem Collision.cons_append_cons {γ : Type} {h : α → γ} (hc : Collision h (l ++ m)) (s t : α) :
    Collision h (s :: l ++ t :: m) :=
  hc.mono (by grind)

theorem eq_or_collision [DecidableEq α] {γ : Type} {h : α → γ} {s t : α} (hst : h s = h t) (l m : List α) :
    s = t ∨ Collision h (s :: l ++ t :: m) := by
  by_cases heq : s = t
  · exact .inl heq
  · exact .inr ⟨s, by simp, t, by simp, heq, hst⟩

theorem eq_or_collision_of_map [DecidableEq α] {γ : Type} {h : α → γ} (hmap : l.map h = m.map h) :
    l = m ∨ Collision h (l ++ m) := by
  induction l generalizing m with
  | nil => exact .inl (map_eq_nil_iff.mp hmap.symm).symm
  | cons s l ih =>
    cases m with
    | nil => simp at hmap
    | cons t m =>
      obtain ⟨hhead, htail⟩ := cons.inj hmap
      rcases eq_or_collision hhead l m with rfl | hc
      · rcases ih htail with rfl | hc
        · exact .inl rfl
        · exact .inr (hc.cons_append_cons s s)
      · exact .inr hc

theorem map_eq_of_flatMap {w : Nat} (hw : 0 < w) (hlen : ∀ s, (h s).length = w)
    (hflat : l.flatMap h = m.flatMap h) : l.map h = m.map h := by
  have hcount : l.length = m.length := by
    have := congrArg List.length hflat
    simp only [length_flatMap, hlen, map_const', sum_replicate_nat] at this
    exact Nat.eq_of_mul_eq_mul_right hw this
  exact eq_iff_flatten_eq.mpr ⟨hflat, by simp [Function.comp_def, hlen, hcount]⟩

theorem eq_or_collision_of_flatMap [DecidableEq α] {w : Nat} (hw : 0 < w) (hlen : ∀ s, (h s).length = w)
    (hflat : l.flatMap h = m.flatMap h) : l = m ∨ Collision h (l ++ m) :=
  eq_or_collision_of_map (map_eq_of_flatMap hw hlen hflat)

end NuttxApps.Digest
