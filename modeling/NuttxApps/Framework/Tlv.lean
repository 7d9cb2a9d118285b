import Mathlib.Data.List.Basic
import Mathlib.Algebra.Group.Nat.Defs

/-!
# Options of type, length and value

A list of options as BOOTP has them. The code `pad` stands for itself alone, and the code `fin` ends the list. `walk`
reads the options that are complete and says how the list ends: every list is its complete options and a rest that shows
it (`walk_split`).
-/

namespace NuttxApps.Tlv

open List

inductive Stop
  /-- With the code `fin`. -/
  | ended
  /-- At the end of the bytes. -/
  | exhausted
  /-- With a code that has no length. -/
  | noLength
  /-- In the data of an option, of which so many bytes are missing. -/
  | short (k : Nat)
deriving DecidableEq

section

variable (pad fin : UInt8)

/-- The complete options behind the first `k` bytes, and how the list ends. -/
def walk : Nat → List UInt8 → List (UInt8 × List UInt8) × Stop
  | 0, [] => ([], .exhausted)
  | k + 1, [] => ([], .short (k + 1))
  | k + 1, _ :: bs => walk k bs
  | 0, [c] => if c = fin then ([], .ended) else if c = pad then ([], .exhausted) else ([], .noLength)
  | 0, c :: n :: bs =>
    if c = fin then ([], .ended)
    else if c = pad then walk 0 (n :: bs)
    else if n.toNat ≤ bs.length then ((c, bs.take n.toNat) :: (walk n.toNat bs).1, (walk n.toNat bs).2)
    else ([], .short (n.toNat - bs.length))

end

section

variable {pad fin : UInt8} {bs cs : List UInt8}

theorem walk_skip {k : Nat} (hk : k ≤ bs.length) : walk pad fin k bs = walk pad fin 0 (bs.drop k) := by
  induction bs generalizing k with
  | nil =>
    obtain rfl : k = 0 := by simpa using hk
    rfl
  | cons b bs ih =>
    cases k with
    | zero => rfl
    | succ k => rw [walk, drop_succ_cons, ih (by simpa using hk)]

@[simp] theorem walk_fin (bs : List UInt8) : walk pad fin 0 (fin :: bs) = ([], .ended) := by
  cases bs <;> simp [walk]

theorem walk_pad (hne : pad ≠ fin) (bs : List UInt8) : walk pad fin 0 (pad :: bs) = walk pad fin 0 bs := by
  cases bs <;> simp [walk, hne]

variable {c n : UInt8} (hc : c ≠ fin) (hc' : c ≠ pad)

include hc hc'

theorem walk_code : walk pad fin 0 [c] = ([], .noLength) := by simp [walk, hc, hc']

theorem walk_option (hn : n.toNat ≤ bs.length) :
    walk pad fin 0 (c :: n :: bs) =
      ((c, bs.take n.toNat) :: (walk pad fin 0 (bs.drop n.toNat)).1, (walk pad fin 0 (bs.drop n.toNat)).2) := by
  rw [walk, if_neg hc, if_neg hc', if_pos hn, walk_skip hn]

theorem walk_short (hn : bs.length < n.toNat) : walk pad fin 0 (c :: n :: bs) = ([], .short (n.toNat - bs.length)) := by
  rw [walk, if_neg hc, if_neg hc', if_neg (by omega)]

end

variable {bs cs : List UInt8}

theorem walk_induction (pad fin : UInt8) {motive : List UInt8 → Prop} (nil : motive [])
    (ended : ∀ bs, motive (fin :: bs)) (padding : ∀ bs, motive bs → motive (pad :: bs))
    (code : ∀ c, c ≠ fin → c ≠ pad → motive [c])
    (option : ∀ c n bs, c ≠ fin → c ≠ pad → n.toNat ≤ bs.length → motive (bs.drop n.toNat) → motive (c :: n :: bs))
    (short : ∀ c n bs, c ≠ fin → c ≠ pad → bs.length < n.toNat → motive (c :: n :: bs))
    (bs : List UInt8) : motive bs := by
  induction hlen : bs.length using Nat.strongRecOn generalizing bs with
  | ind l ih =>
    cases bs with
    | nil => exact nil
    | cons c bs =>
      rw [length_cons] at hlen
      by_cases hc : c = fin
      · exact hc ▸ ended bs
      by_cases hc' : c = pad
      · exact hc' ▸ padding bs (ih _ (by omega) _ rfl)
      cases bs with
      | nil => exact code c hc hc'
      | cons n bs =>
        rcases Nat.lt_or_ge bs.length n.toNat with hn | hn
        · exact short c n bs hc hc' hn
        · refine option c n bs hc hc' hn (ih _ ?_ _ rfl)
          rw [length_cons] at hlen
          rw [length_drop]
          omega

variable {pad fin : UInt8} (hne : pad ≠ fin)

include hne

theorem walk_append (h : (walk pad fin 0 bs).2 = .exhausted) :
    walk pad fin 0 (bs ++ cs) =
      ((walk pad fin 0 bs).1 ++ (walk pad fin 0 cs).1, (walk pad fin 0 cs).2) := by
  induction bs using walk_induction pad fin with
  | nil => rfl
  | ended bs =>
    rw [walk_fin] at h
    cases h
  | padding bs ih =>
    rw [walk_pad hne] at h
    rw [cons_append, walk_pad hne, walk_pad hne, ih h]
  | code c hc hc' =>
    rw [walk_code hc hc'] at h
    cases h
  | option c n bs hc hc' hn ih =>
    rw [walk_option hc hc' hn] at h
    rw [cons_append, cons_append, walk_option hc hc' hn,
      walk_option hc hc' (by rw [length_append]; omega), drop_append_of_le_length hn,
      take_append_of_le_length hn, ih h, cons_append]
  | short c n bs hc hc' hn =>
    rw [walk_short hc hc' hn] at h
    cases h

inductive Rest (pad fin : UInt8) : List UInt8 → Stop → Prop
  | exhausted : Rest pad fin [] .exhausted
  | ended (bs : List UInt8) : Rest pad fin (fin :: bs) .ended
  | noLength (c : UInt8) : c ≠ fin → c ≠ pad → Rest pad fin [c] .noLength
  | short (c n : UInt8) (bs : List UInt8) : c ≠ fin → c ≠ pad → bs.length < n.toNat →
    Rest pad fin (c :: n :: bs) (.short (n.toNat - bs.length))

theorem walk_split (bs : List UInt8) :
    ∃ os rest, bs = os ++ rest ∧ walk pad fin 0 os = ((walk pad fin 0 bs).1, .exhausted) ∧
      Rest pad fin rest (walk pad fin 0 bs).2 := by
  induction bs using walk_induction pad fin with
  | nil => exact ⟨[], [], rfl, rfl, .exhausted⟩
  | ended bs =>
    rw [walk_fin]
    exact ⟨[], fin :: bs, rfl, rfl, .ended bs⟩
  | padding bs ih =>
    rw [walk_pad hne]
    obtain ⟨os, rest, hbs, hos, hrest⟩ := ih
    exact ⟨pad :: os, rest, by rw [hbs, cons_append], by rw [walk_pad hne, hos], hrest⟩
  | code c hc hc' =>
    rw [walk_code hc hc']
    exact ⟨[], [c], rfl, rfl, .noLength c hc hc'⟩
  | option c n bs hc hc' hn ih =>
    rw [walk_option hc hc' hn]
    obtain ⟨os, rest, hbs, hos, hrest⟩ := ih
    refine ⟨c :: n :: (bs.take n.toNat ++ os), rest, ?_, ?_, hrest⟩
    · rw [cons_append, cons_append, append_assoc, ← hbs, take_append_drop]
    · have hlen : (bs.take n.toNat).length = n.toNat := by rw [length_take, Nat.min_eq_left hn]
      rw [walk_option hc hc' (by rw [length_append]; omega), take_left' hlen, drop_left' hlen, hos]
  | short c n bs hc hc' hn =>
    rw [walk_short hc hc' hn]
    exact ⟨[], _, rfl, rfl, .short c n bs hc hc' hn⟩

end NuttxApps.Tlv
