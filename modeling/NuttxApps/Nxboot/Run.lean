import NuttxApps.Nxboot.Perform

/-!
# Runs

A device runs through uploads into the update slot, calls of `nxboot_confirm` and calls of `nxboot_perform_update`, and
may lose power after any operation. The images are those of `nximage.py`, which puts the CRC-32 of all that follows the
CRC field into the header.
-/

namespace NuttxApps.Nxboot

open Bytes Replay
open List

/-- An image as an application uploads it, with `NXBOOT_HEADER_MAGIC`. -/
structure Image where
  bytes : List UInt8
  magic : leBytes 4 headerMagic <+: bytes

inductive Event
  /-- the first `n` bytes of an image are written to the update slot -/
  | upload (img : Image) (n : Nat)
  /-- `nxboot_confirm`, cut after some operations or complete -/
  | confirm (cut : Option Nat)
  /-- `nxboot_perform_update(check_only)`, cut after some operations or complete -/
  | perform (checkOnly : Bool) (cut : Option Nat)

def upTo (cut : Option Nat) (ops : List FlashOp) : List FlashOp :=
  match cut with
  | none => ops
  | some k => ops.take k

structure Sys (B : Board) where
  flash : Flash B
  /-- the last `nxboot_perform_update` was completed, and no power lost since -/
  on : Bool
  /-- `nxboot_confirm` was called since an update was last written to the primary slot -/
  confirmCalled : Bool
  /-- the application uploaded to the slot since the last completed update -/
  uploaded : Slot → Bool
  /-- the slot holds a recovery that the boot loader saved -/
  saved : Slot → Bool

variable {B : Board}

def Sys.factory (f : Flash B) : Sys B := ⟨f, false, false, fun _ => false, fun _ => false⟩

def step (s : Sys B) : Event → Sys B
  | .upload img n =>
    let update := nxbootOpenUpdatePartition s.flash
    { s with
      flash := s.flash.over update img.bytes n
      -- to upload no byte is no upload
      uploaded := if n = 0 then s.uploaded else Function.update s.uploaded update true
      saved := if n = 0 then s.saved else Function.update s.saved update false }
  | .confirm cut =>
    { s with
      flash := replay FlashOp.apply s.flash (upTo cut (nxbootConfirm s.flash).2)
      on := s.on && cut.isNone
      confirmCalled := true }
  | .perform checkOnly cut =>
    let state := nxbootGetState s.flash
    let ops := upTo cut (nxbootPerformUpdate s.flash checkOnly).2
    { flash := replay FlashOp.apply s.flash ops
      on := cut.isNone
      -- an update that is written to the primary slot is not confirmed
      confirmCalled := s.confirmCalled && !(state.nextBoot = .update && ops.any (·.writes .primary))
      uploaded := if ops.any FlashOp.isErase then fun _ => false else s.uploaded
      saved :=
        if state.nextBoot = .update && ops.any (·.writes state.recovery) then
          Function.update s.saved state.recovery true
        else s.saved }

variable (f : Flash B)

theorem nxbootOpenUpdatePartition_eq : nxbootOpenUpdatePartition f = f.update :=
  (performUpdate_slots f).1

theorem step_upload_zero (s : Sys B) (img : Image) : step s (.upload img 0) = s := by
  simp only [step, Flash.over_zero, if_true]

variable (check : Bool) (cut : Option Nat)

theorem performs_upTo :
    Performs f check cut.isNone (upTo cut (nxbootPerformUpdate f check).2)
      (replay FlashOp.apply f (upTo cut (nxbootPerformUpdate f check).2)) := by
  cases cut with
  | none =>
    have := performs_take f check (d := true) (k := (nxbootPerformUpdate f check).2.length)
      fun _ => take_length
    rwa [take_length] at this
  | some k => exact performs_take f check (d := false) (by simp)

theorem confirms_upTo :
    upTo cut (nxbootConfirm f).2 = [] ∨
      f.confirmed = false ∧ ∃ n, (B.geom f.update).blocksize ≤ n ∧ n ≤ reach B .primary f.update ∧
        replay FlashOp.apply f (upTo cut (nxbootConfirm f).2) =
          f.over f.update (patched f .primary (f.hdr .primary).magic) n := by
  cases cut with
  | none =>
    have := confirms_take f (nxbootConfirm f).2.length
    rwa [take_length] at this
  | some k => exact confirms_take f k

theorem magic_upload (s : Slot) (img : Image) {n : Nat} (hn : 0 < n) :
    isInternalMagic ((f.over s img.bytes n).hdr s).magic = false := by
  obtain ⟨rest, hrest⟩ := img.magic
  have hsize := (B.geom s).header_le_size
  have hbyte : ((f.over s img.bytes n).part s)[0]? = some 0x4e := by
    rw [Flash.over, Flash.part_write_self, getElem?_splice, if_pos ?_, ← hrest]
    · rw [getElem?_take_of_lt (by omega)]
      rfl
    · rw [f.length_part, ← hrest, length_take, length_append, length_leBytes]
      omega
  by_contra h
  have hdiv := div_of_isInternalMagic ((f.over s img.bytes n).magic_lt s) (by simpa using h)
  have hmagic : ((f.over s img.bytes n).hdr s).magic = field ((f.over s img.bytes n).part s) 0 4 := rfl
  rcases hp : (f.over s img.bytes n).part s with _ | ⟨x, p⟩
  · simp [hp] at hbyte
  · rw [hp] at hbyte hmagic
    obtain rfl : x = 0x4e := by simpa using hbyte
    rw [field, drop_zero, take_succ_cons, le] at hmagic
    rw [hmagic, show UInt8.toNat 0x4e = 78 from rfl] at hdiv
    omega

def crcBit (c : Nat) : Nat := if c % 2 = 1 then (c / 2) ^^^ 0xedb88320 else c / 2

def crcByte (c : Nat) (b : UInt8) : Nat :=
  crcBit (crcBit (crcBit (crcBit (crcBit (crcBit (crcBit (crcBit (c ^^^ b.toNat))))))))

theorem crcBit_lt {c : Nat} (h : c < 2 ^ 32) : crcBit c < 2 ^ 32 := by
  unfold crcBit
  split
  · exact Nat.xor_lt_two_pow (by omega) (by decide)
  · omega

theorem crcByte_lt {c : Nat} (h : c < 2 ^ 32) (b : UInt8) : crcByte c b < 2 ^ 32 := by
  have hb : b.toNat < 2 ^ 32 := Nat.lt_trans b.toNat_lt (by decide)
  iterate 8 refine crcBit_lt ?_
  exact Nat.xor_lt_two_pow h hb

/-- The CRC-32 of `crc32part` and of `zlib.crc32`, without the inversions. -/
def Crc32.ieee : Crc32 where
  part bs c := bs.foldl crcByte c
  part_nil _ := rfl
  part_append _ _ _ := foldl_append
  part_lt bs := by
    induction bs with
    | nil => exact fun c h => h
    | cons b bs ih => exact fun c h => ih _ (crcByte_lt h b)

def packPreRelease (s : List UInt8) : List UInt8 := (s ++ replicate 94 0).take 94

def imageRest (headerSize identifier : Nat) (version : ImgVersion) (data : List UInt8) : List UInt8 :=
  leBytes 4 data.length ++ (leBytes 8 identifier ++ (leBytes 4 0 ++ (leBytes 2 version.major ++
    (leBytes 2 version.minor ++ (leBytes 2 version.patch ++ (packPreRelease version.preRelease ++
      (replicate (headerSize - 128) 0xff ++ data)))))))

def addHeader (c : Crc32) (headerSize identifier : Nat) (version : ImgVersion) (data : List UInt8) : List UInt8 :=
  let rest := imageRest headerSize identifier version data
  leBytes 4 headerMagic ++ (leBytes 2 0 ++ (leBytes 2 headerSize ++
    (leBytes 4 (c.part rest 0xffffffff ^^^ 0xffffffff) ++ rest)))

variable {B : Board}

/-- A flash programmed with the given bytes in each slot, erased behind them. -/
def Flash.load (B : Board) (img : Slot → List UInt8) : Flash B where
  part s := (img s ++ replicate (B.geom s).size B.erased).take (B.geom s).size
  length_part s := by simp

def nximage (headerSize identifier : Nat) (version : ImgVersion) (data : List UInt8) : Image :=
  ⟨addHeader .ieee headerSize identifier version data, prefix_append _ _⟩

def Board.uniform (g : Geometry) (preventDowngrade : Bool) : Board :=
  ⟨fun _ => g, 0xff, 0, preventDowngrade, .ieee⟩

def Flash.factory (B : Board) (img : Image) : Flash B := Flash.load B fun s => if s = .primary then img.bytes else []

end NuttxApps.Nxboot
