import Mathlib.Data.List.Basic

/-!
# Two machines and the queues between them

Each machine reads the messages of the other in order and may send some for each one it reads, until it has halted. Two
moves that are possible at the same time commute (`Step.diamond`), so one run that stops decides about all of them
(`Steps.completes`), as `always_iff_of_runs` and `not_always_of_runs` say.
-/

namespace NuttxApps.Duplex

structure Machine (σ α β : Type) where
  halted : σ → Bool
  react : σ → α → σ × List β

structure Joint (σ τ α β : Type) where
  left : σ
  right : τ
  toRight : List α
  toLeft : List β

variable {σ τ α β : Type}

inductive Step (L : Machine σ β α) (R : Machine τ α β) : Joint σ τ α β → Joint σ τ α β → Prop
  | left {l r as b bs} : L.halted l = false →
    Step L R ⟨l, r, as, b :: bs⟩ ⟨(L.react l b).1, r, as ++ (L.react l b).2, bs⟩
  | right {l r a as bs} : R.halted r = false →
    Step L R ⟨l, r, a :: as, bs⟩ ⟨l, (R.react r a).1, as, bs ++ (R.react r a).2⟩

inductive Steps (L : Machine σ β α) (R : Machine τ α β) : Nat → Joint σ τ α β → Joint σ τ α β → Prop
  | refl {c} : Steps L R 0 c c
  | head {n c d e} : Step L R c d → Steps L R n d e → Steps L R (n + 1) c e

variable (L : Machine σ β α) (R : Machine τ α β)

def Runs (c d : Joint σ τ α β) : Prop := ∃ n, Steps L R n c d

def Stopped (c : Joint σ τ α β) : Prop := ∀ d, ¬ Step L R c d

/-- Every run from `c` ends, whatever the order of the moves, and then `P` holds. -/
def Always (c : Joint σ τ α β) (P : Joint σ τ α β → Prop) : Prop :=
  ∃ n, ∀ m d, Steps L R m c d → m ≤ n ∧ ∃ t, Steps L R (n - m) d t ∧ Stopped L R t ∧ P t

variable {L : Machine σ β α} {R : Machine τ α β} {c d e t : Joint σ τ α β} {m n : Nat}

theorem Step.diamond (h : Step L R c d) (h' : Step L R c e) : d = e ∨ ∃ t, Step L R d t ∧ Step L R e t := by
  cases h with
  | left hl =>
    cases h' with
    | left => exact .inl rfl
    | right hr => exact .inr ⟨_, .right hr, .left hl⟩
  | right hr =>
    cases h' with
    | left hl => exact .inr ⟨_, .left hl, .right hr⟩
    | right => exact .inl rfl

theorem Steps.trans (h : Steps L R m c d) (h' : Steps L R n d e) : Steps L R (m + n) c e := by
  induction h with
  | refl => rwa [Nat.zero_add]
  | head hs _ ih =>
    rw [Nat.add_right_comm]
    exact .head hs (ih h')

theorem Runs.refl (c : Joint σ τ α β) : Runs L R c c := ⟨0, .refl⟩

theorem Runs.head (h : Step L R c d) : Runs L R d e → Runs L R c e
  | ⟨n, h'⟩ => ⟨n + 1, .head h h'⟩

theorem Runs.trans : Runs L R c d → Runs L R d e → Runs L R c e
  | ⟨m, h⟩, ⟨n, h'⟩ => ⟨m + n, h.trans h'⟩

theorem Steps.exchange (h : Steps L R n c t) (ht : Stopped L R t) (hs : Step L R c d) :
    ∃ k, n = k + 1 ∧ Steps L R k d t := by
  induction h generalizing d with
  | refl => exact absurd hs (ht d)
  | @head n c e t hce het ih =>
    rcases hce.diamond hs with rfl | ⟨u, heu, hdu⟩
    · exact ⟨n, rfl, het⟩
    · -- the run from `e` can begin with the step that `d` has already made
      obtain ⟨k, rfl, hk⟩ := ih ht heu
      exact ⟨k + 1, rfl, .head hdu hk⟩

theorem Steps.completes (h : Steps L R n c t) (ht : Stopped L R t) (hd : Steps L R m c d) :
    m ≤ n ∧ Steps L R (n - m) d t := by
  induction hd generalizing n with
  | refl => exact ⟨Nat.zero_le n, h⟩
  | @head m c d e hcd _ ih =>
    obtain ⟨k, rfl, hk⟩ := h.exchange ht hcd
    obtain ⟨hle, hrest⟩ := ih hk
    exact ⟨Nat.succ_le_succ hle, by rwa [Nat.add_sub_add_right]⟩

theorem Steps.eq_of_stopped (h : Steps L R n c d) (hc : Stopped L R c) : d = c := by
  cases h with
  | refl => rfl
  | head hs => exact absurd hs (hc _)

theorem always_iff_of_runs {P : Joint σ τ α β → Prop} (h : Runs L R c t) (ht : Stopped L R t) :
    Always L R c P ↔ P t := by
  obtain ⟨n, h⟩ := h
  constructor
  · rintro ⟨m, hm⟩
    obtain ⟨-, u, hu, -, hP⟩ := hm n t h
    rwa [hu.eq_of_stopped ht] at hP
  · intro hP
    exact ⟨n, fun _ _ hd => ⟨(h.completes ht hd).1, t, (h.completes ht hd).2, ht, hP⟩⟩

theorem Steps.left_of_halted (h : Steps L R n c d) (hc : L.halted c.left = true) : d.left = c.left := by
  induction h with
  | refl => rfl
  | head hs _ ih =>
    cases hs with
    | left hl => exact absurd hc (by simp [hl])
    | right => exact ih hc

theorem Steps.right_of_halted (h : Steps L R n c d) (hc : R.halted c.right = true) : d.right = c.right := by
  induction h with
  | refl => rfl
  | head hs _ ih =>
    cases hs with
    | left => exact ih hc
    | right hr => exact absurd hc (by simp [hr])

theorem stopped_of_halted (hl : L.halted c.left = true) (hr : R.halted c.right = true) : Stopped L R c := by
  intro d hs
  cases hs with
  | left h => exact absurd hl (by simp [h])
  | right h => exact absurd hr (by simp [h])

/-- If a run has reached a state after which `P` can no longer become true, `P` is not where all runs end. -/
theorem not_always_of_runs {P : Joint σ τ α β → Prop} (h : Runs L R c d)
    (hP : ∀ k t, Steps L R k d t → ¬ P t) : ¬ Always L R c P := by
  rintro ⟨m, hm⟩
  obtain ⟨n, h⟩ := h
  obtain ⟨-, t, ht, -, hPt⟩ := hm n d h
  exact hP _ t ht hPt

end NuttxApps.Duplex
