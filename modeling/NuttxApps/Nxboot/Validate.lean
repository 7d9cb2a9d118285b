import NuttxApps.Nxboot.Safe

/-!
# What a valid image is

`calculate_crc` returns one number, whether or not it is the CRC of the image: 0 where the partition cannot be queried,
there is no memory, or the length in the header is negative as an `int`; all ones where a read fails. A header with that
number passes `validate_image`. Otherwise the bytes under the CRC are just those of the image, if it lies in its
partition (`validateImageIn_sound_iff`).
-/

namespace NuttxApps.Nxboot

open Bytes
open List

variable {B : Board}

/-- What fails while an image is checked: `flash_partition_info`, `malloc`, and the reads from some offsets. -/
structure Faults where
  (info malloc : Bool)
  read : Nat → Bool

def Faults.none : Faults := ⟨false, false, fun _ => false⟩

variable (F : Faults) (f : Flash B) (s : Slot)

def flashPartitionReadIn (count off : Nat) : Option (List UInt8) :=
  if F.read off then .none else flashPartitionRead f s count off

def getImageHeaderIn : ImgHeader :=
  match flashPartitionReadIn F f s 128 0 with
  | .none => .ofBytes (replicate 128 0)
  | some buf => .ofBytes buf

def calculateCrcLoopIn (F : Faults) (f : Flash B) (s : Slot) (blocksize : Nat) : Nat → Nat → Nat → Nat → Option Nat
  | 0, _, _, crc => some crc
  | fuel + 1, off, remain, crc =>
    if remain > 0 then do
      let readsiz := if remain > blocksize then blocksize else remain
      let buf ← flashPartitionReadIn F f s readsiz off
      calculateCrcLoopIn F f s blocksize fuel (off + readsiz) (remain - readsiz) (B.crc32.part buf crc)
    else some crc

def calculateCrcIn (h : ImgHeader) : Nat :=
  if F.info then 0
  else if F.malloc then 0
  else
    let remain := (toInt (h.size + h.headerSize - 12)).toNat
    match calculateCrcLoopIn F f s (B.geom s).blocksize remain 12 remain 0xffffffff with
    | .none => 0xffffffff
    | some crc => crc ^^^ 0xffffffff

def validateImageIn : Bool :=
  let h := getImageHeaderIn F f s
  validateImageHeader B h && calculateCrcIn F f s h == h.crc

def Faults.Readable (blocksize off remain : Nat) : Prop :=
  ∀ k < remain, k * blocksize < remain → F.read (off + k * blocksize) = false

instance (F : Faults) (blocksize off remain : Nat) : Decidable (F.Readable blocksize off remain) :=
  inferInstanceAs (Decidable (∀ k < remain, k * blocksize < remain → F.read (off + k * blocksize) = false))

section

variable {F : Faults} (f : Flash B) (s : Slot) {b fuel off remain : Nat}

theorem Faults.readable_zero (F : Faults) (b off : Nat) : F.Readable b off 0 := fun _ h => absurd h (Nat.not_lt_zero _)

theorem Faults.readable_iff (hb : 0 < b) (hpos : 0 < remain) :
    F.Readable b off remain ↔
      F.read off = false ∧ F.Readable b (off + min b remain) (remain - min b remain) := by
  constructor
  · intro h
    refine ⟨by simpa using h 0 hpos (by simpa using hpos), fun k hk hkb => ?_⟩
    have hle : b ≤ remain := by omega
    have hnext := h (k + 1) (by have := Nat.le_mul_of_pos_right k hb; rw [Nat.min_eq_left hle] at hkb; omega)
      (by rw [Nat.min_eq_left hle] at hkb; rw [Nat.add_mul]; omega)
    rw [Nat.min_eq_left hle]
    rw [Nat.add_mul, Nat.one_mul, Nat.add_comm (k * b), ← Nat.add_assoc] at hnext
    exact hnext
  · rintro ⟨hfirst, hrest⟩ k hk hkb
    cases k with
    | zero => simpa using hfirst
    | succ k =>
      rw [Nat.add_mul, Nat.one_mul] at hkb
      have hle : b ≤ remain := by omega
      rw [Nat.min_eq_left hle] at hrest
      have := hrest k (by have := Nat.le_mul_of_pos_right k hb; omega) (by omega)
      rw [Nat.add_mul, Nat.one_mul, Nat.add_comm (k * b), ← Nat.add_assoc]
      exact this

theorem calculateCrcLoopIn_eq (hb : 0 < b) (hfuel : remain ≤ fuel) (crc : Nat) :
    calculateCrcLoopIn F f s b fuel off remain crc =
      if F.Readable b off remain then calculateCrcLoop f s b fuel off remain crc else .none := by
  induction fuel generalizing off remain crc with
  | zero =>
    obtain rfl : remain = 0 := by omega
    rfl
  | succ fuel ih =>
    rcases Nat.eq_zero_or_pos remain with rfl | hpos
    · rw [if_pos (F.readable_zero b off)]
      rfl
    · simp only [calculateCrcLoopIn, calculateCrcLoop, if_pos hpos, readsiz_eq, flashPartitionReadIn,
        F.readable_iff hb hpos]
      cases hread : F.read off with
      | true => simp
      | false =>
        simp only [true_and, Bool.false_eq_true, if_false]
        cases hbuf : flashPartitionRead f s (min b remain) off with
        | none => simp
        | some buf => exact ih (by omega) _

end

/-- The end of the image: `header_size + size`, without wrap-around. -/
def ImgHeader.imageEnd (h : ImgHeader) : Nat := h.headerSize + h.size

def crcUpTo (B : Board) (p : List UInt8) (n : Nat) : Nat := B.crc32.part ((p.take n).drop 12) 0xffffffff ^^^ 0xffffffff

def Faults.Works (B : Board) (s : Slot) (n : Nat) : Prop :=
  F.info = false ∧ F.malloc = false ∧ F.Readable (B.geom s).blocksize 12 (n - 12)

/-- What `calculate_crc` returns in place of the CRC, where something fails or the image ends outside its
partition. -/
def strayCrc (n : Nat) : Nat :=
  if F.info ∨ F.malloc then 0
  -- the length is negative as an `int`
  else if 2 ^ 31 + 12 ≤ n ∧ n < 2 ^ 32 + 12 then 0
  -- the length has wrapped around
  else if 2 ^ 32 + 12 ≤ n ∧ n - 2 ^ 32 ≤ (B.geom s).size ∧ F.Readable (B.geom s).blocksize 12 (n - 2 ^ 32 - 12) then
    crcUpTo B (f.part s) (n - 2 ^ 32)
  else 0xffffffff

theorem crcOf_eq (B : Board) {p : List UInt8} {remain : Nat} (h : 12 + remain ≤ p.length) :
    crcOf B p remain = crcUpTo B p (12 + remain) := by
  rw [crcOf, if_pos h, crcUpTo, drop_take, Nat.add_sub_cancel_left]

theorem calculateCrcIn_eq (h : ImgHeader) :
    calculateCrcIn F f s h =
      if F.info ∨ F.malloc then 0
      else if F.Readable (B.geom s).blocksize 12 h.remain then crcOf B (f.part s) h.remain
      else 0xffffffff := by
  have hb : 0 < (B.geom s).blocksize := by have := (B.geom s).four_le; omega
  have hcrc := calculateCrc_eq f s h
  rw [calculateCrcIn, ← ImgHeader.remain]
  simp only [calculateCrcLoopIn_eq f s hb (Nat.le_refl h.remain)]
  cases F.info <;> cases F.malloc <;> simp only [Bool.false_eq_true, if_false, or_self, if_true, or_true, true_or]
  split_ifs
  · exact hcrc
  · rfl

theorem ImgHeader.remain_of_end {h : ImgHeader} (hlt : h.imageEnd < 2 ^ 32 + 2 ^ 31) :
    h.remain = if 2 ^ 31 + 12 ≤ h.imageEnd ∧ h.imageEnd < 2 ^ 32 + 12 then 0 else (h.imageEnd - 12) % 2 ^ 32 := by
  split_ifs
  all_goals
    simp only [remain, imageEnd, toInt, Int.bmod] at *
    omega

theorem imageEnd_lt : (f.hdr s).imageEnd < 2 ^ 32 + 2 ^ 31 := by
  have hh : (f.hdr s).headerSize < 2 ^ 16 := field_lt _ 6 2
  have hs : (f.hdr s).size < 2 ^ 32 := field_lt _ 12 4
  rw [ImgHeader.imageEnd]
  omega

variable {F : Faults} {f : Flash B} {s : Slot}

theorem calculateCrcIn_inside (hw : F.Works B s (f.hdr s).imageEnd)
    (hin : (f.hdr s).imageEnd ≤ (B.geom s).size) :
    calculateCrcIn F f s (f.hdr s) = crcUpTo B (f.part s) (f.hdr s).imageEnd := by
  obtain ⟨hinfo, hmalloc, hread⟩ := hw
  have hsize : (B.geom s).size < 2 ^ 31 := (B.geom s).size_lt
  have hremain : (f.hdr s).remain = (f.hdr s).imageEnd - 12 := by
    rw [ImgHeader.remain_of_end (imageEnd_lt f s), if_neg (by omega)]
    omega
  have hheader := (B.geom s).header_le_size
  rw [calculateCrcIn_eq, hinfo, hmalloc, if_neg (by simp), hremain, if_pos hread,
    crcOf_eq B (by rw [f.length_part]; omega), crcUpTo, crcUpTo, drop_take, drop_take]
  congr 3
  omega

theorem calculateCrcIn_stray
    (h : ¬ (F.Works B s (f.hdr s).imageEnd ∧ (f.hdr s).imageEnd ≤ (B.geom s).size)) :
    calculateCrcIn F f s (f.hdr s) = strayCrc F f s (f.hdr s).imageEnd := by
  have hlt := imageEnd_lt f s
  have hheader := (B.geom s).header_le_size
  rw [calculateCrcIn_eq, strayCrc, ImgHeader.remain_of_end hlt]
  refine if_ctx_congr Iff.rfl (fun _ => rfl) fun hfault => ?_
  by_cases hneg : 2 ^ 31 + 12 ≤ (f.hdr s).imageEnd ∧ (f.hdr s).imageEnd < 2 ^ 32 + 12
  · -- no byte is read
    rw [if_pos hneg, if_pos hneg, if_pos (F.readable_zero _ _), crcOf_eq B (by rw [f.length_part]; omega), crcUpTo,
      Nat.add_zero, drop_eq_nil_of_le (length_take_le 12 _), B.crc32.part_nil, Nat.xor_self]
  rw [if_neg hneg, if_neg hneg]
  rcases Nat.lt_or_ge (f.hdr s).imageEnd (2 ^ 32 + 12) with hsmall | hwrap
  · -- the image is read up to its end, or up to the end of the partition
    rw [Nat.mod_eq_of_lt (show (f.hdr s).imageEnd - 12 < 2 ^ 32 by omega),
      if_neg fun hc : 2 ^ 32 + 12 ≤ (f.hdr s).imageEnd ∧ _ => absurd hc.1 (Nat.not_le.mpr hsmall)]
    split_ifs with hread
    · have hout : ¬ (f.hdr s).imageEnd ≤ (B.geom s).size := fun hin =>
        h ⟨⟨by simpa using fun hi => hfault (.inl hi), by simpa using fun hm => hfault (.inr hm), hread⟩, hin⟩
      rw [crcOf, if_neg (by rw [f.length_part]; omega)]
    · rfl
  · have hmod : ((f.hdr s).imageEnd - 12) % 2 ^ 32 = (f.hdr s).imageEnd - 2 ^ 32 - 12 := by omega
    have hback : 12 + ((f.hdr s).imageEnd - 2 ^ 32 - 12) = (f.hdr s).imageEnd - 2 ^ 32 := by omega
    rw [hmod]
    by_cases hread : F.Readable (B.geom s).blocksize 12 ((f.hdr s).imageEnd - 2 ^ 32 - 12)
    · by_cases hin : (f.hdr s).imageEnd - 2 ^ 32 ≤ (B.geom s).size
      · rw [if_pos hread, if_pos ⟨hwrap, hin, hread⟩, crcOf_eq B (by rw [f.length_part]; omega), hback]
      · rw [if_pos hread, if_neg fun hc => hin hc.2.1, crcOf, if_neg (by rw [f.length_part]; omega)]
    · rw [if_neg hread, if_neg fun hc => hread hc.2.2]

/-- The image ends in its partition, and the CRC field is the CRC of its bytes. -/
def Proper (f : Flash B) (s : Slot) : Prop :=
  (f.hdr s).imageEnd ≤ (B.geom s).size ∧ (f.hdr s).crc = crcUpTo B (f.part s) (f.hdr s).imageEnd

theorem getImageHeaderIn_of_read (h : F.read 0 = false) : getImageHeaderIn F f s = getImageHeader f s := by
  have hread : flashPartitionReadIn F f s 128 0 = flashPartitionRead f s 128 0 := by simp [flashPartitionReadIn, h]
  rcases hbuf : flashPartitionRead f s 128 0 with _ | buf <;> simp [getImageHeaderIn, getImageHeader, hread, hbuf]

theorem getImageHeaderIn_eq
    (h : validateImageHeader B (getImageHeaderIn F f s) = true) : getImageHeaderIn F f s = f.hdr s := by
  cases hread : F.read 0 with
  | true =>
    have hzero : getImageHeaderIn F f s = .ofBytes (replicate 128 0) := by
      simp [getImageHeaderIn, flashPartitionReadIn, hread]
    have hmagic : (ImgHeader.ofBytes (replicate 128 0)).magic = 0 := by decide +kernel
    rw [hzero, validateImageHeader, hmagic] at h
    exact absurd h (by simp [headerMagic, isInternalMagic, headerMagicInt])
  | false => rw [getImageHeaderIn_of_read hread, getImageHeader_eq]

theorem validateImageIn_sound_iff (F : Faults) (f : Flash B) (s : Slot) :
    (validateImageIn F f s = true → Proper f s) ↔
      validateImageHeader B (getImageHeaderIn F f s) = false ∨
        (f.hdr s).crc ≠ strayCrc F f s (f.hdr s).imageEnd ∨
        (f.hdr s).imageEnd ≤ (B.geom s).size ∧
          (F.Works B s (f.hdr s).imageEnd ∨ (f.hdr s).crc = crcUpTo B (f.part s) (f.hdr s).imageEnd) := by
  cases hheader : validateImageHeader B (getImageHeaderIn F f s) with
  | false => simp [validateImageIn, hheader]
  | true =>
    have hvalid : validateImageIn F f s = true ↔ calculateCrcIn F f s (f.hdr s) = (f.hdr s).crc := by
      rw [validateImageIn, getImageHeaderIn_eq hheader] at *
      simp [hheader]
    rw [hvalid]
    by_cases hw : F.Works B s (f.hdr s).imageEnd ∧ (f.hdr s).imageEnd ≤ (B.geom s).size
    · rw [calculateCrcIn_inside hw.1 hw.2, Proper]
      simp [hw.1, hw.2, eq_comm]
    · rw [calculateCrcIn_stray hw, Proper]
      tauto

theorem validateImageIn_none (f : Flash B) (s : Slot) : validateImageIn .none f s = validateImage f s := by
  have hread : ∀ b off remain, Faults.none.Readable b off remain := fun _ _ _ _ _ _ => rfl
  have hheader : getImageHeaderIn .none f s = getImageHeader f s := getImageHeaderIn_of_read rfl
  have hcrc : ∀ h, calculateCrcIn .none f s h = calculateCrc f s h := fun h => by
    rw [calculateCrcIn_eq, if_neg (by simp [Faults.none]), if_pos (hread _ _ _), calculateCrc_eq]
  rw [validateImageIn, validateImage, hheader, hcrc]

def longHeader : List UInt8 :=
  [0x4e, 0x58, 0x4f, 0x53, 0, 0, 0x80, 0, 0xff, 0xff, 0xff, 0xff, 0, 1, 0, 0, 0, 0, 0, 0, 0, 0, 0, 0]

theorem validateImage_long :
    validateImageIn .none (Flash.load (Board.uniform (sectors 2 4 sectors_two blocks_four) false) fun _ => longHeader)
        .primary = true ∧
      ¬ Proper (Flash.load (Board.uniform (sectors 2 4 sectors_two blocks_four) false) fun _ => longHeader)
        .primary := by
  constructor
  · rw [validateImageIn_none, validateImage_eq]
    decide +kernel
  · intro h
    exact absurd h.1 (by decide +kernel)

end NuttxApps.Nxboot
