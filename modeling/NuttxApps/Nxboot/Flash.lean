import NuttxApps.Framework.Bytes
import NuttxApps.Framework.Replay

/-!
# The flash partitions of nxboot

What changes the medium is a list of `FlashOp`s: `flash_partition_write` writes one block after the other, and erasing
the first sector is one operation. `Flash.over f s a n` is the slot `s` overwritten with the first `n` bytes of `a`, as
everything nxboot writes is at any cut (`replay_blockWrites`).
-/

namespace NuttxApps.Nxboot

open Bytes Replay
open List hiding min

inductive Slot
  | primary
  | secondary
  | tertiary
deriving DecidableEq

/-- `NXBOOT_PRIMARY_SLOT_NUM`, `NXBOOT_SECONDARY_SLOT_NUM`, `NXBOOT_TERTIARY_SLOT_NUM`. -/
def Slot.num : Slot → Nat
  | .primary => 0
  | .secondary => 1
  | .tertiary => 2

/-- `struct mtd_geometry_s`, of a partition in whose first sector the header fits, with sizes that fit an `int`. -/
structure Geometry where
  (blocksize erasesize neraseblocks : Nat)
  blocksize_pow : ∃ k, 2 ≤ k ∧ blocksize = 2 ^ k
  blocksize_dvd : blocksize ∣ erasesize
  header_le : 128 ≤ erasesize
  neraseblocks_pos : 0 < neraseblocks
  size_lt : erasesize * neraseblocks < 2 ^ 31

def Geometry.size (g : Geometry) : Nat := g.erasesize * g.neraseblocks

structure Crc32 where
  part : List UInt8 → Nat → Nat
  part_nil : ∀ c, part [] c = c
  part_append : ∀ a b c, part (a ++ b) c = part b (part a c)
  part_lt : ∀ a c, c < 2 ^ 32 → part a c < 2 ^ 32

structure Board where
  geom : Slot → Geometry
  /-- the value of an erased byte -/
  erased : UInt8
  /-- `CONFIG_NXBOOT_PLATFORM_IDENTIFIER` -/
  platformIdentifier : Nat
  /-- `CONFIG_NXBOOT_PREVENT_DOWNGRADE` -/
  preventDowngrade : Bool
  crc32 : Crc32

section

variable (g : Geometry)

theorem Geometry.four_le : 4 ≤ g.blocksize := by
  obtain ⟨k, hk, h⟩ := g.blocksize_pow
  rw [h]
  exact Nat.pow_le_pow_right (n := 2) (i := 2) (by decide) hk

theorem Geometry.blocksize_le : g.blocksize ≤ g.erasesize :=
  Nat.le_of_dvd (by have := g.header_le; omega) g.blocksize_dvd

theorem Geometry.erasesize_le : g.erasesize ≤ g.size :=
  Nat.le_mul_of_pos_right _ g.neraseblocks_pos

theorem Geometry.header_le_size : 128 ≤ g.size := Nat.le_trans g.header_le g.erasesize_le

end

@[ext]
structure Flash (B : Board) where
  part : Slot → List UInt8
  length_part : ∀ s, (part s).length = (B.geom s).size

variable {B : Board}

def Flash.write (f : Flash B) (s : Slot) (off : Nat) (d : List UInt8) : Flash B where
  part t := if t = s then splice (f.part s) off d else f.part t
  length_part t := by
    split
    · next h => rw [length_splice, f.length_part, h]
    · exact f.length_part t

/-- An operation of the medium: a block write, or the erase of the first sector. -/
inductive FlashOp
  | write (s : Slot) (off : Nat) (d : List UInt8)
  | erase (s : Slot)
deriving DecidableEq

def FlashOp.writes (s : Slot) : FlashOp → Bool
  | .write t _ _ => t = s
  | .erase _ => false

def FlashOp.isErase : FlashOp → Bool
  | .write _ _ _ => false
  | .erase _ => true

section

variable {s t : Slot} {ops : List FlashOp} (h : ∀ op ∈ ops, op.writes t = true)
include h

theorem any_isErase_of_writes : ops.any FlashOp.isErase = false := by
  refine any_eq_false.mpr fun op hop => ?_
  have := h op hop
  cases op with
  | write => simp [FlashOp.isErase]
  | erase => cases this

theorem any_writes_of_ne (hst : s ≠ t) : ops.any (·.writes s) = false := by
  refine any_eq_false.mpr fun op hop => ?_
  have := h op hop
  cases op with
  | write u off d =>
    simp only [FlashOp.writes, decide_eq_true_eq] at this ⊢
    rw [this]
    exact hst.symm
  | erase => cases this

theorem any_writes (hops : ops ≠ []) : ops.any (·.writes t) = true := by
  obtain ⟨op, rest, rfl⟩ := exists_cons_of_ne_nil hops
  rw [any_cons, h op mem_cons_self, Bool.true_or]

end

def FlashOp.apply (f : Flash B) : FlashOp → Flash B
  | .write s off d => f.write s off d
  | .erase s => f.write s 0 (List.replicate (B.geom s).erasesize B.erased)

def flashPartitionRead (f : Flash B) (s : Slot) (count off : Nat) : Option (List UInt8) :=
  if count + off > (B.geom s).size then none else some (((f.part s).drop off).take count)

def blockWrites (s : Slot) (blocksize : Nat) : Nat → Nat → List UInt8 → List FlashOp
  | 0, _, _ => []
  | _ + 1, _, [] => []
  | fuel + 1, off, b :: d =>
    .write s off ((b :: d).take blocksize) ::
      blockWrites s blocksize fuel (off + blocksize) ((b :: d).drop blocksize)

variable {f : Flash B} {s : Slot}

theorem writes_blockWrites {b fuel off : Nat} {d : List UInt8} :
    ∀ op ∈ blockWrites s b fuel off d, op.writes s = true := by
  induction fuel generalizing off d with
  | zero => simp [blockWrites]
  | succ fuel ih =>
    cases d with
    | nil => simp [blockWrites]
    | cons x d =>
      intro op hop
      rcases mem_cons.mp hop with rfl | hop
      · simp [FlashOp.writes]
      · exact ih op hop

def flashPartitionWrite (B : Board) (s : Slot) (buf : List UInt8) (off : Nat) : Option (List FlashOp) :=
  if buf.length + off > (B.geom s).size then none
  else some (blockWrites s (B.geom s).blocksize buf.length off buf)

def flashPartitionEraseFirstSector (s : Slot) : List FlashOp := [.erase s]

variable {count off : Nat}

theorem flashPartitionRead_some (h : count + off ≤ (B.geom s).size) :
    flashPartitionRead f s count off = some (((f.part s).drop off).take count) :=
  if_neg (by omega)

theorem flashPartitionRead_none (h : (B.geom s).size < count + off) : flashPartitionRead f s count off = none :=
  if_pos h

theorem readsiz_eq (blocksize remain : Nat) :
    (if remain > blocksize then blocksize else remain) = min blocksize remain := by
  split <;> omega

def Flash.over (f : Flash B) (s : Slot) (a : List UInt8) (n : Nat) : Flash B := f.write s 0 (a.take n)

section

variable (f : Flash B) (s : Slot) (a : List UInt8) {n : Nat}

theorem Flash.part_write_self (off : Nat) (d : List UInt8) : (f.write s off d).part s = splice (f.part s) off d :=
  if_pos rfl

theorem Flash.part_write_of_ne {s t : Slot} (h : t ≠ s) (off : Nat) (d : List UInt8) :
    (f.write s off d).part t = f.part t :=
  if_neg h

theorem Flash.part_over_of_ne {s t : Slot} (h : t ≠ s) : (f.over s a n).part t = f.part t := if_neg h

@[simp] theorem Flash.over_zero : f.over s a 0 = f := by
  ext t : 2
  by_cases h : t = s
  · subst h
    simp [Flash.over, Flash.write, splice]
  · exact f.part_over_of_ne a h

theorem Flash.write_over (hn : n ≤ a.length) (m : Nat) :
    (f.over s a n).write s n ((a.drop n).take m) = f.over s a (n + m) := by
  ext t : 2
  by_cases h : t = s
  · subst h
    simp [Flash.over, Flash.write, splice_splice _ _ _ hn]
  · rw [Flash.part_write_of_ne _ h, Flash.part_over_of_ne _ _ h, Flash.part_over_of_ne _ _ h]

variable (hn : n ≤ a.length) (hs : n ≤ (B.geom s).size)

include hn hs

theorem Flash.getElem?_over (i : Nat) : ((f.over s a n).part s)[i]? = if i < n then a[i]? else (f.part s)[i]? := by
  simp only [Flash.over, Flash.write, if_true, getElem?_splice, length_take, f.length_part, getElem?_take]
  grind

theorem Flash.agree_over : Agree ((f.over s a n).part s) a 0 n :=
  fun i _ hi => by rw [f.getElem?_over s a hn hs, if_pos hi]

theorem Flash.agree_over_rest (m : Nat) : Agree ((f.over s a n).part s) (f.part s) n m :=
  fun i hi _ => by rw [f.getElem?_over s a hn hs, if_neg (by omega)]

end

theorem replay_blockWrites (f : Flash B) (s : Slot) (a : List UInt8) {b : Nat} (hb : 0 < b) {fuel n l : Nat}
    (hl : n + l ≤ a.length) (hfuel : l ≤ fuel) :
    (∀ k, ∃ m, ((blockWrites s b fuel n ((a.drop n).take l)).take k = [] ∧ m = n ∨ n + min b l ≤ m) ∧
      m ≤ n + l ∧
      replay FlashOp.apply (f.over s a n) ((blockWrites s b fuel n ((a.drop n).take l)).take k) =
        f.over s a m) ∧
    replay FlashOp.apply (f.over s a n) (blockWrites s b fuel n ((a.drop n).take l)) = f.over s a (n + l) := by
  induction fuel generalizing n l with
  | zero =>
    obtain rfl : l = 0 := by omega
    exact ⟨fun k => ⟨n, .inl ⟨by simp [blockWrites], rfl⟩, by omega, by simp [blockWrites]⟩, rfl⟩
  | succ fuel ih =>
    rcases hd : (a.drop n).take l with _ | ⟨x, d⟩
    · have h0 : l = 0 := by
        have := congrArg List.length hd
        simp at this
        omega
      subst h0
      exact ⟨fun k => ⟨n, .inl ⟨by simp [blockWrites], rfl⟩, by omega, by simp [blockWrites]⟩, rfl⟩
    · have hfirst : (f.over s a n).write s n ((x :: d).take b) = f.over s a (n + min b l) := by
        rw [← hd, take_take, f.write_over s a (by omega)]
      have hrest : (x :: d).drop b = (a.drop (n + b)).take (l - b) := by
        rw [← hd, drop_take, drop_drop]
      rw [blockWrites, hrest]
      -- behind a short last block there is nothing left
      have hih : (∀ k, ∃ m, n + min b l ≤ m ∧ m ≤ n + l ∧
          replay FlashOp.apply (f.over s a (n + min b l))
            ((blockWrites s b fuel (n + b) ((a.drop (n + b)).take (l - b))).take k) = f.over s a m) ∧
          replay FlashOp.apply (f.over s a (n + min b l))
            (blockWrites s b fuel (n + b) ((a.drop (n + b)).take (l - b))) = f.over s a (n + l) := by
        rcases Nat.lt_or_ge l b with hlb | hlb
        · have hnil : blockWrites s b fuel (n + b) ((a.drop (n + b)).take (l - b)) = [] := by
            rw [Nat.sub_eq_zero_of_le (by omega), take_zero]
            cases fuel <;> rfl
          rw [hnil, Nat.min_eq_right (by omega)]
          exact ⟨fun k => ⟨n + l, by omega, by omega, by simp⟩, rfl⟩
        · obtain ⟨hcut, hall⟩ := ih (n := n + b) (l := l - b) (by omega) (by omega)
          rw [Nat.min_eq_left hlb]
          refine ⟨fun k => ?_, by rw [hall]; congr 1; omega⟩
          obtain ⟨m, hm, hm', hre⟩ := hcut k
          exact ⟨m, by omega, by omega, hre⟩
      refine ⟨fun k => ?_, by rw [replay_cons, FlashOp.apply, hfirst, hih.2]⟩
      cases k with
      | zero => exact ⟨n, .inl ⟨rfl, rfl⟩, by omega, rfl⟩
      | succ k =>
        obtain ⟨m, hm, hm', hre⟩ := hih.1 k
        exact ⟨m, .inr hm, hm', by rw [take_succ_cons, replay_cons, FlashOp.apply, hfirst, hre]⟩

end NuttxApps.Nxboot
