import Mathlib.Data.List.Basic

/-!
# Cyclic redundancy checks

`crc32part` is the reflected CRC-32 with the polynomial `0xedb88320`; `crc16xmodempart` is the CRC-16 with the
polynomial `0x1021`, most significant bit first. A message that is followed by its checksum leaves a fixed remainder
(`crc16xmodempart_residue`, `crc32part_residue`).
-/

namespace NuttxApps.Crc

open List

def crc32Bit (c : UInt32) : UInt32 := if c &&& 1 = 1 then (c >>> 1) ^^^ 0xedb88320 else c >>> 1

def crc32Byte (c : UInt32) (b : UInt8) : UInt32 :=
  (range 8).foldl (fun c _ => crc32Bit c) (c ^^^ b.toUInt32)

def crc32part (s : List UInt8) (c : UInt32) : UInt32 := s.foldl crc32Byte c

variable (s t : List UInt8) (c : UInt32)

theorem crc32part_append : crc32part (s ++ t) c = crc32part t (crc32part s c) :=
  foldl_append

def le32 (d : UInt32) : List UInt8 :=
  [d.toUInt8, (d >>> 8).toUInt8, (d >>> 16).toUInt8, (d >>> 24).toUInt8]

def reduce : Nat → BitVec 32 → BitVec 32
  | 0, c => c
  | n + 1, c => if (reduce n c).getLsbD 0 then (reduce n c >>> 1) ^^^ 0xedb88320#32 else reduce n c >>> 1

theorem reduce_add (m n : Nat) (c : BitVec 32) : reduce (m + n) c = reduce n (reduce m c) := by
  induction n with
  | zero => rfl
  | succ n ih => rw [← Nat.add_assoc, reduce, ih, reduce]

theorem and_one_eq_one_iff : c &&& 1 = 1 ↔ c.toBitVec.getLsbD 0 = true := by
  have hbit : c.toBitVec.getLsbD 0 = decide (c.toNat % 2 = 1) := Nat.testBit_zero _
  rw [← UInt32.toNat_inj, UInt32.toNat_and, show (1 : UInt32).toNat = 1 from rfl, Nat.and_one_is_mod, hbit,
    decide_eq_true_iff]

variable (b : UInt8)

theorem toBitVec_crc32Byte : (crc32Byte c b).toBitVec = reduce 8 (c.toBitVec ^^^ b.toBitVec.setWidth 32) := by
  have hbits : ∀ (n : Nat) (c : UInt32),
      ((range n).foldl (fun c _ => crc32Bit c) c).toBitVec = reduce n c.toBitVec := by
    intro n c
    induction n with
    | zero => rfl
    | succ n ih =>
      rw [range_succ, foldl_append, foldl_cons, foldl_nil, crc32Bit, reduce, ← ih]
      exact (apply_ite ..).trans (if_congr (and_one_eq_one_iff _) rfl rfl)
  exact hbits 8 _

theorem reduce_xor (x z : BitVec 32) {n : Nat} (hz : ∀ i < n, z.getLsbD i = false) :
    reduce n (x ^^^ z) = reduce n x ^^^ (z >>> n) := by
  induction n with
  | zero => simp [reduce]
  | succ n ih =>
    have hbit : (z >>> n).getLsbD 0 = false := by simpa using hz n (Nat.lt_succ_self n)
    rw [reduce, reduce, ih fun i hi => hz i (Nat.lt_succ_of_lt hi), BitVec.getLsbD_xor, hbit, Bool.xor_false,
      BitVec.ushiftRight_xor_distrib, BitVec.shiftRight_add]
    split
    · rw [BitVec.xor_assoc, BitVec.xor_assoc, BitVec.xor_comm (z >>> n >>> 1)]
    · rfl

theorem reduce_byte (u e : BitVec 32) :
    reduce 8 (u ^^^ e ^^^ (e.setWidth 8).setWidth 32) = reduce 8 u ^^^ (e >>> 8) := by
  rw [BitVec.xor_assoc, reduce_xor]
  · congr 1
    refine BitVec.eq_of_getLsbD_eq fun i hi => ?_
    simp
  · intro i hi
    simp [hi, show i < 32 by omega]

theorem crc32part_le32 (c d : UInt32) : (crc32part (le32 d) c).toBitVec = reduce 32 (c.toBitVec ^^^ d.toBitVec) := by
  have hfirst : c.toBitVec = (c.toBitVec ^^^ d.toBitVec) ^^^ d.toBitVec := by
    rw [BitVec.xor_assoc, BitVec.xor_self, BitVec.xor_zero]
  have hrest : d.toBitVec >>> 8 >>> 8 >>> 8 >>> 8 = 0#32 := by
    rw [← BitVec.shiftRight_add, ← BitVec.shiftRight_add, ← BitVec.shiftRight_add]
    exact BitVec.ushiftRight_eq_zero .refl
  have hstep : ∀ (r : UInt32) (u e : BitVec 32) (b : UInt8), r.toBitVec = u ^^^ e → b.toBitVec = e.setWidth 8 →
      (crc32Byte r b).toBitVec = reduce 8 u ^^^ (e >>> 8) := by
    intro r u e b hr hb
    rw [toBitVec_crc32Byte, hr, hb, reduce_byte]
  have h₁ := hstep c _ d.toBitVec d.toUInt8 hfirst rfl
  have h₂ := hstep _ _ _ (d >>> 8).toUInt8 h₁ rfl
  have h₃ := hstep _ _ _ (d >>> 16).toUInt8 h₂ (by rw [← BitVec.shiftRight_add]; rfl)
  have h₄ := hstep _ _ _ (d >>> 24).toUInt8 h₃ (by rw [← BitVec.shiftRight_add, ← BitVec.shiftRight_add]; rfl)
  rw [hrest, BitVec.xor_zero, ← reduce_add, ← reduce_add, ← reduce_add] at h₄
  exact h₄

theorem crc32part_residue (s : List UInt8) :
    crc32part (s ++ le32 (~~~ crc32part s 0xffffffff)) 0xffffffff = 0xdebb20e3 := by
  rw [crc32part_append, ← UInt32.toBitVec_inj, crc32part_le32, UInt32.toBitVec_not]
  have hones : (crc32part s 0xffffffff).toBitVec ^^^ ~~~ (crc32part s 0xffffffff).toBitVec = BitVec.allOnes 32 := by
    refine BitVec.eq_of_getLsbD_eq fun i hi => ?_
    rw [BitVec.getLsbD_xor, BitVec.getLsbD_not, BitVec.getLsbD_allOnes, decide_eq_true hi, Bool.true_and,
      Bool.xor_not_self]
  rw [hones]
  decide +kernel

def crc16Bit (c : UInt16) : UInt16 := if c &&& 0x8000 = 0x8000 then (c <<< 1) ^^^ 0x1021 else c <<< 1

def crc16Byte (c : UInt16) (b : UInt8) : UInt16 :=
  (range 8).foldl (fun c _ => crc16Bit c) (c ^^^ (b.toUInt16 <<< 8))

def crc16xmodempart (s : List UInt8) (c : UInt16) : UInt16 := s.foldl crc16Byte c

theorem crc16xmodempart_append (c : UInt16) : crc16xmodempart (s ++ t) c = crc16xmodempart t (crc16xmodempart s c) :=
  foldl_append

def be16 (c : UInt16) : List UInt8 := [(c >>> 8).toUInt8, c.toUInt8]

theorem crc16Bits_low : (range 8).foldl (fun c _ => crc16Bit c) b.toUInt16 = b.toUInt16 <<< 8 := by
  have hall : ∀ n < 256, (range 8).foldl (fun c _ => crc16Bit c) (UInt8.ofNat n).toUInt16 =
      (UInt8.ofNat n).toUInt16 <<< 8 := by
    decide +kernel
  simpa using hall b.toNat b.toNat_lt

theorem crc16xmodempart_residue (s : List UInt8) : crc16xmodempart (s ++ be16 (crc16xmodempart s 0)) 0 = 0 := by
  rw [crc16xmodempart_append]
  generalize crc16xmodempart s 0 = c
  have hlow : c ^^^ ((c >>> 8).toUInt8.toUInt16 <<< 8) = c.toUInt8.toUInt16 := by
    refine UInt16.toBitVec_inj.mp (BitVec.eq_of_getLsbD_eq fun i hi => ?_)
    simp only [UInt16.toBitVec_xor, UInt16.toBitVec_shiftLeft, UInt8.toBitVec_toUInt16, UInt16.toBitVec_toUInt8,
      UInt16.toBitVec_shiftRight, BitVec.getLsbD_xor, BitVec.getLsbD_setWidth]
    rcases Nat.lt_or_ge i 8 with h | h
    · simp [hi, h]
    · simp [hi, Nat.not_lt.mpr h, show i - 8 < 8 by omega, show 8 + (i - 8) = i by omega]
  show crc16Byte (crc16Byte c (c >>> 8).toUInt8) c.toUInt8 = 0
  rw [crc16Byte, crc16Byte, hlow, crc16Bits_low, UInt16.xor_self]
  rfl

end NuttxApps.Crc
