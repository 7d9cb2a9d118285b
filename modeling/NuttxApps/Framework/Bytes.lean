import Mathlib.Algebra.Group.Nat.Defs
import Mathlib.Data.List.Basic

/-!
# Bytes of a medium

`splice` writes into a list of bytes without changing its length. `le` reads a little-endian number, `leBytes` writes
one, and `field` reads the number of `w` bytes at an offset; a field depends only on its own bytes (`field_congr`), and
equal fields are equal bytes (`agree_of_field_eq`).
-/

namespace NuttxApps.Bytes

open List hiding le

def le : List UInt8 → Nat
  | [] => 0
  | b :: bs => b.toNat + 256 * le bs

def leBytes : Nat → Nat → List UInt8
  | 0, _ => []
  | w + 1, n => UInt8.ofNat (n % 256) :: leBytes w (n / 256)

variable (p : List UInt8) (off : Nat) (d : List UInt8) (big : Bool) (w n : Nat)

@[simp] theorem length_leBytes : (leBytes w n).length = w := by
  induction w generalizing n with
  | zero => rfl
  | succ w ih => rw [leBytes, length_cons, ih]

theorem le_leBytes {w n : Nat} (h : n < 256 ^ w) : le (leBytes w n) = n := by
  induction w generalizing n with
  | zero => rw [Nat.lt_one_iff.mp h]; rfl
  | succ w ih =>
    have hq : n / 256 < 256 ^ w := by rw [Nat.pow_succ] at h; omega
    have hb : (UInt8.ofNat (n % 256)).toNat = n % 256 := by
      rw [UInt8.toNat_ofNat', Nat.mod_eq_of_lt (by omega)]
    rw [leBytes, le, ih hq, hb]
    omega

variable (bs : List UInt8)

theorem le_lt : le bs < 256 ^ bs.length := by
  induction bs with
  | nil => decide
  | cons b bs ih =>
    have hb := b.toNat_lt
    rw [le, length_cons, Nat.pow_succ]
    omega

theorem le_append (a b : List UInt8) : le (a ++ b) = le a + 256 ^ a.length * le b := by
  induction a with
  | nil => rw [nil_append, le, length_nil, Nat.pow_zero, Nat.one_mul, Nat.zero_add]
  | cons x a ih =>
    rw [cons_append, le, ih, le, length_cons, Nat.pow_succ, Nat.mul_add, Nat.mul_right_comm,
      Nat.mul_comm (256 ^ a.length * le b), Nat.add_assoc]

theorem leBytes_le : leBytes bs.length (le bs) = bs := by
  induction bs with
  | nil => rfl
  | cons b bs ih =>
    have hb := b.toNat_lt
    rw [le, length_cons, leBytes, show (b.toNat + 256 * le bs) / 256 = le bs by omega, ih,
      show (b.toNat + 256 * le bs) % 256 = b.toNat by omega, UInt8.ofNat_toNat]

theorem le_inj {a b : List UInt8} (hl : a.length = b.length) (h : le a = le b) : a = b := by
  rw [← leBytes_le a, ← leBytes_le b, hl, h]

/-- A number of `w` bytes as it is stored, most significant byte first if `big`. -/
def store : List UInt8 := if big then (leBytes w n).reverse else leBytes w n

def load : Nat := le (if big then bs.reverse else bs)

@[simp] theorem length_store : (store big w n).length = w := by
  cases big <;> simp [store]

theorem load_lt : load big bs < 256 ^ bs.length := by
  cases big with
  | false => exact le_lt bs
  | true => simpa [load] using le_lt bs.reverse

theorem load_store {w n : Nat} (h : n < 256 ^ w) : load big (store big w n) = n := by
  cases big <;> simp [load, store, le_leBytes h]

theorem load_inj {big : Bool} {a b : List UInt8} (hl : a.length = b.length) (h : load big a = load big b) : a = b := by
  cases big with
  | false => exact le_inj hl h
  | true => exact reverse_injective (le_inj (by simpa using hl) h)

def bytesAt (mem : Nat → UInt8) (a n : Nat) : List UInt8 := (List.range n).map fun i => mem (a + i)

section

variable (mem : Nat → UInt8)

@[simp] theorem length_bytesAt (a n : Nat) : (bytesAt mem a n).length = n := by simp [bytesAt]

theorem bytesAt_append (a m n : Nat) : bytesAt mem a (m + n) = bytesAt mem a m ++ bytesAt mem (a + m) n := by
  simp only [bytesAt, range_add, map_append, map_map]
  congr 2
  funext i
  simp only [Function.comp_apply, add_assoc]

theorem drop_bytesAt (a k n : Nat) : (bytesAt mem a (k + n)).drop k = bytesAt mem (a + k) n := by
  rw [bytesAt_append, drop_left' (length_bytesAt ..)]

theorem take_bytesAt (a k n : Nat) : (bytesAt mem a (k + n)).take k = bytesAt mem a k := by
  rw [bytesAt_append, take_left' (length_bytesAt ..)]

theorem getElem?_bytesAt (a n i : Nat) : (bytesAt mem a n)[i]? = if i < n then some (mem (a + i)) else none := by
  rw [bytesAt, getElem?_map]
  split_ifs with h
  · rw [getElem?_range h, Option.map_some]
  · rw [getElem?_eq_none (by simpa using h), Option.map_none]

end

theorem bytesAt_getD (bytes : List UInt8) (stale : Nat → UInt8) {n : Nat} (hn : n ≤ bytes.length) :
    bytesAt (fun k => bytes.getD k (stale k)) 0 n = bytes.take n := by
  refine ext_getElem? fun k => ?_
  rw [getElem?_bytesAt, getElem?_take, zero_add]
  split_ifs with hk
  · rw [getD_eq_getElem?_getD, getElem?_eq_getElem (by omega), Option.getD_some]
  · rfl

/-- `d` written at offset `off` of `p`, as far as it fits. -/
def splice : List UInt8 :=
  p.take off ++ d.take (p.length - off) ++ p.drop (off + d.length)

@[simp] theorem length_splice : (splice p off d).length = p.length := by
  simp only [splice, length_append, length_take, length_drop]
  omega

theorem getElem?_splice (i : Nat) :
    (splice p off d)[i]? =
      if off ≤ i ∧ i < off + d.length ∧ i < p.length then d[i - off]? else p[i]? := by
  rcases Nat.lt_or_ge i p.length with hp | hp
  · rw [splice, append_assoc]
    rcases Nat.lt_or_ge i off with h | h
    · rw [getElem?_append_left (by simp; omega), getElem?_take_of_lt h, if_neg (by omega)]
    · rw [getElem?_append_right (by simp; omega), length_take, Nat.min_eq_left (by omega)]
      rcases Nat.lt_or_ge i (off + d.length) with h' | h'
      · rw [getElem?_append_left (by simp; omega), getElem?_take_of_lt (by omega), if_pos ⟨h, h', hp⟩]
      · rw [getElem?_append_right (by simp; omega), getElem?_drop, if_neg (by omega),
          length_take]
        congr 1
        omega
  · rw [getElem?_eq_none (by simpa using hp), if_neg (by omega), getElem?_eq_none hp]

theorem splice_eq_append {p d : List UInt8} (off : Nat) (h : off + d.length ≤ p.length) :
    splice p off d = p.take off ++ d ++ p.drop (off + d.length) := by
  have hd : d.take (p.length - off) = d := take_of_length_le (by omega)
  rw [splice, hd]

theorem splice_append {b d : List UInt8} (a c : List UInt8) (h : d.length = b.length) :
    splice (a ++ (b ++ c)) a.length d = a ++ (d ++ c) := by
  rw [splice_eq_append _ (by simp only [length_append]; omega), take_left, ← drop_drop, drop_left,
    h, drop_left, append_assoc]

theorem take_splice_zero {p d : List UInt8} {n : Nat} (hn : n ≤ d.length) (hd : d.length ≤ p.length) :
    (splice p 0 d).take n = d.take n := by
  rw [splice_eq_append 0 (by omega), take_zero, nil_append, take_append_of_le_length hn]

theorem splice_splice (p a : List UInt8) {n : Nat} (m : Nat) (hn : n ≤ a.length) :
    splice (splice p 0 (a.take n)) n ((a.drop n).take m) = splice p 0 (a.take (n + m)) := by
  refine ext_getElem? fun i => ?_
  simp only [getElem?_splice, length_take, length_drop, length_splice, getElem?_take, getElem?_drop]
  grind

def field (off w : Nat) : Nat := le ((p.drop off).take w)

def Agree (p q : List UInt8) (lo hi : Nat) : Prop := ∀ i, lo ≤ i → i < hi → p[i]? = q[i]?

instance (p q : List UInt8) (lo hi : Nat) : Decidable (Agree p q lo hi) :=
  decidable_of_iff (∀ i, i < hi → lo ≤ i → p[i]? = q[i]?)
    ⟨fun h i h₁ h₂ => h i h₂ h₁, fun h i h₂ h₁ => h i h₁ h₂⟩

variable {p q r : List UInt8} {lo hi off w : Nat}

theorem Agree.mono {lo' hi' : Nat} (h : Agree p q lo hi) (hlo : lo ≤ lo') (hhi : hi' ≤ hi) : Agree p q lo' hi' :=
  fun i h₁ h₂ => h i (by omega) (by omega)

theorem Agree.range (h : Agree p q off (off + w)) : (p.drop off).take w = (q.drop off).take w := by
  refine ext_getElem? fun i => ?_
  simp only [getElem?_take, getElem?_drop]
  split
  · exact h (off + i) (by omega) (by omega)
  · rfl

theorem field_lt (p : List UInt8) (off w : Nat) : field p off w < 256 ^ w :=
  Nat.lt_of_lt_of_le (le_lt _) (Nat.pow_le_pow_right (by decide) (length_take_le _ _))

theorem field_congr (h : Agree p q off (off + w)) : field p off w = field q off w := by
  rw [field, field, h.range]

theorem agree_of_field_eq (hp : off + w ≤ p.length) (hq : off + w ≤ q.length)
    (h : field p off w = field q off w) : Agree p q off (off + w) := by
  have hrange := le_inj (by simp; omega) h
  intro i h₁ h₂
  have := congrArg (·[i - off]?) hrange
  simpa [getElem?_take, getElem?_drop, show i - off < w by omega, show off + (i - off) = i by omega] using this

end NuttxApps.Bytes
