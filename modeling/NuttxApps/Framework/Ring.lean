import Mathlib.Data.List.Basic

/-!
# Rings of the latest items

A ring of `n` cells keeps the last `n` items that were pushed: `head` is the cell of the latest one, those before it
stand in front of it, around the end. `Holds r l` states that the items in the ring `r` are those of `l`, the latest
first (`Holds.push`).
-/

namespace NuttxApps

open List

structure Ring (α : Type) where
  cells : Nat → α
  (head len : Nat)

namespace Ring

variable {α : Type} {n : Nat} {r : Ring α} {l : List α} {x : α}

def index (n : Nat) (r : Ring α) (k : Nat) : Nat := (r.head + n - k) % n

def push (n : Nat) (r : Ring α) (x : α) : Ring α where
  cells := Function.update r.cells ((r.head + 1) % n) x
  head := (r.head + 1) % n
  len := if r.len < n then r.len + 1 else r.len

structure Holds (n : Nat) (r : Ring α) (l : List α) : Prop where
  lt : r.head < n
  len : r.len = l.length
  le : l.length ≤ n
  get : ∀ k < l.length, l[k]? = some (r.cells (r.index n k))

theorem index_push (hn : r.head < n) (x : α) (k : Nat) (hk : k + 1 ≤ n) :
    (r.push n x).index n (k + 1) = r.index n k := by
  show ((r.head + 1) % n + n - (k + 1)) % n = (r.head + n - k) % n
  rcases Nat.lt_or_ge (r.head + 1) n with h | h
  · rw [Nat.mod_eq_of_lt h]
    congr 1
    omega
  · obtain rfl : n = r.head + 1 := by omega
    rw [Nat.mod_self, show r.head + (r.head + 1) - k = (r.head - k) + (r.head + 1) by omega, Nat.add_mod_right]
    congr 1
    omega

theorem index_ne (hn : r.head < n) {k : Nat} (hk : 0 < k) (hkn : k < n) : r.index n k ≠ r.head := by
  unfold index
  rcases Nat.lt_or_ge r.head k with h | h
  · rw [Nat.mod_eq_of_lt (by omega)]
    omega
  · rw [show r.head + n - k = (r.head - k) + n by omega, Nat.add_mod_right, Nat.mod_eq_of_lt (by omega)]
    omega

theorem Holds.push (h : Holds n r l) (x : α) : Holds n (r.push n x) ((x :: l).take n) := by
  have hpos : 0 < n := Nat.zero_lt_of_lt h.lt
  have hlt : (r.push n x).head < n := Nat.mod_lt _ hpos
  have hlen := h.len
  have hle := h.le
  refine ⟨hlt, ?_, length_take_le _ _, fun k hk => ?_⟩
  · simp only [Ring.push, length_take, length_cons]
    split <;> omega
  · rw [length_take, length_cons] at hk
    rw [getElem?_take_of_lt (by omega)]
    show _ = some (Function.update r.cells ((r.head + 1) % n) x ((r.push n x).index n k))
    cases k with
    | zero =>
      have h0 : (r.push n x).index n 0 = (r.head + 1) % n := by
        show ((r.head + 1) % n + n - 0) % n = _
        rw [Nat.sub_zero, Nat.add_mod_right, Nat.mod_mod]
      rw [h0, Function.update_self, getElem?_cons_zero]
    | succ k =>
      have hne : (r.push n x).index n (k + 1) ≠ (r.head + 1) % n := index_ne hlt (Nat.succ_pos k) (by omega)
      rw [Function.update_of_ne hne, getElem?_cons_succ, h.get k (by omega), index_push h.lt x k (by omega)]

end Ring

end NuttxApps
