import Mathlib.Logic.Basic

/-!
# Sequences of writes

A phase `f` of a program that fills a medium `Does` the partial map `g`: it succeeds just if all the addresses in `g`
can be written, and then the medium holds the values of `g` there and is unchanged elsewhere. Where two phases write,
the later value stays (`Does.comp`).
-/

namespace NuttxApps.Writes

open Option

variable {α β ε : Type}

/-- The phase writes the values of `g`, where the addresses that can be written are in `ok`. -/
def Does (ok : α → Prop) (f : (α → β) → Except ε (α → β)) (g : α → Option β) : Prop :=
  ∀ m m', f m = .ok m' ↔ (∀ a, (g a).isSome → ok a) ∧ m' = fun a => (g a).getD (m a)

variable {ok : α → Prop} {f f' : (α → β) → Except ε (α → β)} {g g' : α → Option β}

theorem Does.congr (h : Does ok f g) (hg : ∀ a, g a = g' a) : Does ok f g' := by
  obtain rfl : g = g' := funext hg
  exact h

theorem does_nothing : Does (ε := ε) ok (fun m : α → β => .ok m) fun _ => none := by
  intro m m'
  constructor
  · intro h
    cases h
    exact ⟨nofun, rfl⟩
  · rintro ⟨-, rfl⟩
    rfl

theorem Does.comp (h : Does ok f g) (h' : Does ok f' g') : Does ok (fun m => f m >>= f') fun a => (g' a).or (g a) := by
  intro m m'
  dsimp only
  constructor
  · intro hrun
    cases hf : f m with
    | error e =>
      rw [hf] at hrun
      cases hrun
    | ok m₁ =>
      rw [hf] at hrun
      obtain ⟨hok, rfl⟩ := (h m m₁).mp hf
      obtain ⟨hok', rfl⟩ := (h' _ m').mp hrun
      refine ⟨fun a ha => ?_, funext fun a => (getD_or ..).symm⟩
      rw [isSome_or, Bool.or_eq_true] at ha
      exact ha.elim (hok' a) (hok a)
  · rintro ⟨hok, rfl⟩
    have hf := (h m _).mpr ⟨fun a ha => hok a (by rw [isSome_or, ha, Bool.or_true]), rfl⟩
    rw [hf]
    exact (h' _ _).mpr ⟨fun a ha => hok a (by rw [isSome_or, ha, Bool.true_or]),
      funext fun a => getD_or ..⟩

theorem Does.ite {c : Prop} [Decidable c] (h : Does ok f g) :
    Does ok (fun m => if c then f m else .ok m) fun a => if c then g a else none := by
  by_cases hc : c
  · simp only [if_pos hc]
    exact h
  · simp only [if_neg hc]
    exact does_nothing

def writeRange (w : β → Nat → (Nat → β) → Except ε (Nat → β)) (img : Nat → β) (offset : Nat) :
    Nat → (Nat → β) → Except ε (Nat → β)
  | 0, m => .ok m
  | n + 1, m => writeRange w img offset n m >>= w (img n) (offset + n)

theorem does_writeRange {w : β → Nat → (Nat → β) → Except ε (Nat → β)} {ok : Nat → Prop}
    (hw : ∀ b a, Does ok (w b a) fun x => if x = a then some b else none) (img : Nat → β) (offset n : Nat) :
    Does ok (writeRange w img offset n)
      fun x => if offset ≤ x ∧ x < offset + n then some (img (x - offset)) else none := by
  induction n with
  | zero =>
    refine does_nothing.congr fun x => ?_
    rw [if_neg (by omega)]
  | succ n ih =>
    refine (ih.comp (hw _ _)).congr fun x => ?_
    by_cases hx : x = offset + n
    · subst hx
      rw [if_pos rfl, some_or, if_pos (by omega), Nat.add_sub_cancel_left]
    · rw [if_neg hx, none_or]
      exact if_congr (by omega) rfl rfl

end NuttxApps.Writes
