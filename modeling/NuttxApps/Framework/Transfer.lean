import Mathlib.Data.List.Basic

/-!
# Transfers in pieces

A call that is asked to move `want` elements may move fewer, but it moves one if there is one. What `move` has moved in
the end does not depend on the pieces (`move_eq`).
-/

namespace NuttxApps.Transfer

variable {α : Type}

/-- The elements that call number `t` moves, of at most `most`. -/
def amount (sizes : Nat → Nat) (t most : Nat) : Nat := 1 + sizes t % most

/-- The source, the destination and the number of calls after moving `want` elements, with fuel. -/
def move (sizes : Nat → Nat) : Nat → Nat → List α → List α → Nat → List α × List α × Nat
  | 0, _, src, dst, t => (src, dst, t)
  | fuel + 1, want, src, dst, t =>
    if want = 0 ∨ src = [] then (src, dst, t)
    else
      let n := amount sizes t (min want src.length)
      move sizes fuel (want - n) (src.drop n) (dst ++ src.take n) (t + 1)

theorem move_eq (sizes : Nat → Nat) {fuel want : Nat} (h : want ≤ fuel) (src dst : List α) (t : Nat) :
    ∃ t', move sizes fuel want src dst t = (src.drop want, dst ++ src.take want, t') := by
  induction fuel generalizing want src dst t with
  | zero => exact ⟨t, by simp [move, Nat.le_zero.mp h]⟩
  | succ fuel ih =>
    rw [move]
    split_ifs with hdone
    · refine ⟨t, ?_⟩
      rcases hdone with rfl | rfl <;> simp
    · rw [not_or] at hdone
      have hlength := List.length_pos_iff.mpr hdone.2
      have hmod := Nat.mod_lt (sizes t) (show 0 < min want src.length by omega)
      obtain ⟨t', ht'⟩ := ih (show want - amount sizes t (min want src.length) ≤ fuel by rw [amount]; omega)
        (src.drop (amount sizes t (min want src.length))) (dst ++ src.take (amount sizes t (min want src.length)))
        (t + 1)
      have hn : amount sizes t (min want src.length) ≤ want := by rw [amount]; omega
      generalize amount sizes t (min want src.length) = n at ht' hn
      refine ⟨t', ht'.trans ?_⟩
      rw [List.drop_drop, List.append_assoc, ← List.take_add, Nat.add_sub_cancel' hn]

end NuttxApps.Transfer
