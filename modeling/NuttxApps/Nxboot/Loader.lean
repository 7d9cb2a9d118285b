import NuttxApps.Nxboot.Flash

/-!
# The boot loader

`boot.c`, function by function. A function that writes returns the operations it leaves on the medium, with its result.
That a partition opens, an `ioctl` answers and `malloc` succeeds is taken for granted.
-/

namespace NuttxApps.Nxboot

open Bytes Replay
open List

def headerMagic : Nat := 0x534f584e

def headerMagicInt : Nat := 0xaca0abb0

variable (magic : Nat)

/-- `IS_INTERNAL_MAGIC`, with `NXBOOT_HEADER_MAGIC_INT_MASK`. -/
def isInternalMagic : Bool := magic &&& 0xfffffff0 == headerMagicInt

def recoveryPointer : Nat := magic &&& 0x3

structure ImgVersion where
  (major minor patch : Nat)
  preRelease : List UInt8
deriving DecidableEq

/-- `struct nxboot_img_header`, the fields that the boot loader reads. -/
structure ImgHeader where
  (magic headerSize crc size identifier : Nat)
  imgVersion : ImgVersion
deriving DecidableEq

def ImgHeader.ofBytes (p : List UInt8) : ImgHeader where
  magic := field p 0 4
  headerSize := field p 6 2
  crc := field p 8 4
  size := field p 12 4
  identifier := field p 16 8
  imgVersion := ⟨field p 28 2, field p 30 2, field p 32 2, (p.drop 34).take 94⟩

inductive UpdateType
  | none
  | update
  | revert
deriving DecidableEq

structure NxbootState where
  (update recovery : Slot)
  (recoveryValid recoveryPresent primaryConfirmed : Bool)
  nextBoot : UpdateType
deriving DecidableEq

def toInt (n : Int) : Int := n.bmod (2 ^ 32)

/-- The length of the image: `header.size + header.header_size`, as an `int`. -/
def ImgHeader.length (h : ImgHeader) : Int := toInt (h.size + h.headerSize)

variable {B : Board} (f : Flash B) (from' where' : Slot) (s : Slot)

/-- `get_image_header`: a partition that cannot be read counts as empty. -/
def getImageHeader : ImgHeader :=
  match flashPartitionRead f s 128 0 with
  | none => .ofBytes (replicate 128 0)
  | some buf => .ofBytes buf

def validateImageHeader (B : Board) (h : ImgHeader) : Bool :=
  (h.magic == headerMagic || isInternalMagic h.magic) && h.identifier == B.platformIdentifier

def calculateCrcLoop (f : Flash B) (s : Slot) (blocksize : Nat) : Nat → Nat → Nat → Nat → Option Nat
  | 0, _, _, crc => some crc
  | fuel + 1, off, remain, crc =>
    if remain > 0 then do
      let readsiz := if remain > blocksize then blocksize else remain
      let buf ← flashPartitionRead f s readsiz off
      calculateCrcLoop f s blocksize fuel (off + readsiz) (remain - readsiz) (B.crc32.part buf crc)
    else some crc

def calculateCrc (h : ImgHeader) : Nat :=
  let remain := (toInt (h.size + h.headerSize - 12)).toNat
  match calculateCrcLoop f s (B.geom s).blocksize remain 12 remain 0xffffffff with
  | none => 0xffffffff
  | some crc => crc ^^^ 0xffffffff

def validateImage : Bool :=
  let h := getImageHeader f s
  validateImageHeader B h && calculateCrc f s h == h.crc

/-- The loop that `copy_partition` (behind its first block) and `nxboot_confirm` share. -/
def copyLoop (f : Flash B) (from' where' : Slot) (blocksize : Nat) : Nat → Nat → Nat → Bool × List FlashOp
  | 0, _, _ => (true, [])
  | fuel + 1, off, remain =>
    if remain > 0 then
      let readsiz := if remain > blocksize then blocksize else remain
      match flashPartitionRead f from' readsiz off with
      | none => (false, [])
      | some buf =>
        match flashPartitionWrite B where' buf off with
        | none => (false, [])
        | some ops =>
          let (ret, rest) := copyLoop f from' where' blocksize fuel (off + readsiz) (remain - readsiz)
          (ret, ops ++ rest)
    else (true, [])

variable (state : NxbootState)

/-- The magic that `copy_partition` writes in place of `magic`. -/
def flipMagic (update : Bool) : Nat :=
  let magic := if isInternalMagic magic then headerMagic else headerMagicInt
  if update then magic ||| state.update.num else magic

def copyBlock (B : Board) (from' where' : Slot) : Nat := max (B.geom from').blocksize (B.geom where').blocksize

def copyImage (remain : Int) (magic : Nat) : Bool × List FlashOp :=
  if remain > (B.geom where').size then (false, [])
  else
    let blocksize := copyBlock B from' where'
    match flashPartitionRead f from' blocksize 0 with
    | none => (false, [])
    | some buf =>
      match flashPartitionWrite B where' (leBytes 4 magic ++ buf.drop 4) 0 with
      | none => (false, [])
      | some ops =>
        let remain := (remain - blocksize).toNat
        let (ret, rest) := copyLoop f from' where' blocksize remain blocksize remain
        (ret, ops ++ rest)

def copyPartition (state : NxbootState) (update : Bool) : Bool × List FlashOp :=
  let header := getImageHeader f from'
  copyImage f from' where' header.length (flipMagic header.magic state update)

def compareVersions (B : Board) (v1 v2 : ImgVersion) : Bool :=
  if B.preventDowngrade then
    v1.major > v2.major || v1.minor > v2.minor || v1.patch > v2.patch
  else
    v1.major == v2.major && v1.minor == v2.minor && v1.patch == v2.patch && v1.preRelease == v2.preRelease

def getUpdateType (update : Slot) (primaryHeader updateHeader recoveryHeader : ImgHeader) : UpdateType :=
  let primaryValid := validateImage f .primary
  if updateHeader.magic == headerMagic && validateImage f update &&
      (primaryHeader.crc != updateHeader.crc ||
        !compareVersions B primaryHeader.imgVersion updateHeader.imgVersion || !primaryValid) then
    .update
  else if isInternalMagic recoveryHeader.magic && state.recoveryValid &&
      (isInternalMagic primaryHeader.magic && !state.primaryConfirmed || !primaryValid) then
    .revert
  else .none

variable (primary secondary tertiary : ImgHeader)

/-- The slot for updates that `nxboot_get_state` selects from the headers. -/
def selectUpdate : Slot :=
  if tertiary.magic == headerMagic then .tertiary
  else if isInternalMagic secondary.magic && isInternalMagic tertiary.magic then
    if isInternalMagic primary.magic then
      if recoveryPointer primary.magic == Slot.num .secondary && primary.crc == secondary.crc then .tertiary
      else .secondary
    else if primary.crc == secondary.crc then .tertiary
    else .secondary
  else if isInternalMagic secondary.magic then .tertiary
  else .secondary

def recoveryOf (update : Slot) : Slot := if update = .secondary then .tertiary else .secondary

def isConfirmed : Bool :=
  if primary.magic == headerMagic then true
  else if isInternalMagic primary.magic then
    if recoveryPointer primary.magic == Slot.num .secondary then primary.crc == secondary.crc
    else if recoveryPointer primary.magic == Slot.num .tertiary then primary.crc == tertiary.crc
    else false
  else false

def nxbootGetState : NxbootState :=
  let primaryHeader := getImageHeader f .primary
  let secondaryHeader := getImageHeader f .secondary
  let tertiaryHeader := getImageHeader f .tertiary
  let update := selectUpdate primaryHeader secondaryHeader tertiaryHeader
  let recovery := recoveryOf update
  let state : NxbootState :=
    { update, recovery
      recoveryValid := validateImage f recovery
      recoveryPresent := primaryHeader.crc == (getImageHeader f recovery).crc
      primaryConfirmed := isConfirmed primaryHeader secondaryHeader tertiaryHeader
      nextBoot := .none }
  { state with
    nextBoot := getUpdateType f state update primaryHeader (getImageHeader f update)
      (getImageHeader f recovery) }

def updatePrimary (update : Slot) : List FlashOp :=
  if validateImage f update then
    let (ret, ops) := copyPartition f update .primary state true
    if ret then ops ++ flashPartitionEraseFirstSector update else ops
  else []

def performUpdate (checkOnly : Bool) : List FlashOp :=
  let update : Slot := if state.update = .secondary then .secondary else .tertiary
  let recovery : Slot := if state.update = .secondary then .tertiary else .secondary
  if state.nextBoot = .revert && (!checkOnly || !validateImage f .primary) then
    if state.recoveryValid then (copyPartition f recovery .primary state false).2 else []
  else
    let primaryValid := validateImage f .primary
    if primaryValid && checkOnly then []
    else if (!state.recoveryPresent || !state.recoveryValid) && state.primaryConfirmed && primaryValid then
      let ops := (copyPartition f .primary recovery state false).2
      let f' := replay FlashOp.apply f ops
      if !validateImage f' recovery then ops else ops ++ updatePrimary f' state update
    else updatePrimary f state update

def nxbootOpenUpdatePartition : Slot :=
  if (nxbootGetState f).update = .secondary then .secondary else .tertiary

def nxbootConfirm : Bool × List FlashOp :=
  let state := nxbootGetState f
  if state.primaryConfirmed then (true, [])
  else
    let update : Slot := if state.update = .secondary then .secondary else .tertiary
    copyLoop f .primary update (B.geom update).blocksize (B.geom update).erasesize 0 (B.geom update).erasesize

def nxbootPerformUpdate (checkOnly : Bool) : Bool × List FlashOp :=
  let state := nxbootGetState f
  let ops := if state.nextBoot ≠ .none then performUpdate f state checkOnly else []
  (validateImageHeader B (getImageHeader (replay FlashOp.apply f ops) .primary), ops)

variable {B : Board}

theorem ImgHeader.ofBytes_take (p : List UInt8) : ofBytes (p.take 128) = ofBytes p := by
  have h : Agree (p.take 128) p 0 128 := fun i _ hi => getElem?_take_of_lt hi
  have hf : ∀ off w, off + w ≤ 128 → field (p.take 128) off w = field p off w :=
    fun off w hw => field_congr (h.mono (Nat.zero_le _) hw)
  simp only [ofBytes, hf 0 4 (by decide), hf 6 2 (by decide), hf 8 4 (by decide), hf 12 4 (by decide),
    hf 16 8 (by decide), hf 28 2 (by decide), hf 30 2 (by decide), hf 32 2 (by decide),
    (h.mono (Nat.zero_le 34) (Nat.le_refl 128)).range (w := 94)]

def Flash.hdr : ImgHeader := .ofBytes (f.part s)

variable (f : Flash B) (s : Slot)

theorem getImageHeader_eq : getImageHeader f s = f.hdr s := by
  have := (B.geom s).header_le_size
  rw [getImageHeader, flashPartitionRead_some (by omega), drop_zero]
  exact ImgHeader.ofBytes_take _

def ImgHeader.remain (h : ImgHeader) : Nat := (toInt (h.size + h.headerSize - 12)).toNat

theorem ImgHeader.length_eq {h : ImgHeader} (h₀ : 0 < h.remain) (hlt : 12 + h.remain < 2 ^ 31) :
    h.length = 12 + h.remain := by
  simp only [length, remain, toInt, Int.bmod] at *
  omega

theorem ImgHeader.remain_eq {h : ImgHeader} (h₀ : 12 ≤ h.length) : (12 + h.remain : Int) = h.length := by
  simp only [length, remain, toInt, Int.bmod] at *
  omega

section

variable (f : Flash B) (s : Slot) {b fuel off remain : Nat}

theorem calculateCrcLoop_eq (hb : 0 < b) (hfuel : remain ≤ fuel) (h : off + remain ≤ (B.geom s).size) (crc : Nat) :
    calculateCrcLoop f s b fuel off remain crc =
      some (B.crc32.part (((f.part s).drop off).take remain) crc) := by
  induction fuel generalizing off remain crc with
  | zero =>
    obtain rfl : remain = 0 := by omega
    rw [calculateCrcLoop, take_zero, B.crc32.part_nil]
  | succ fuel ih =>
    rcases Nat.eq_zero_or_pos remain with rfl | hpos
    · rw [calculateCrcLoop, if_neg (by omega), take_zero, B.crc32.part_nil]
    · simp only [calculateCrcLoop, if_pos hpos, readsiz_eq,
        flashPartitionRead_some (show min b remain + off ≤ (B.geom s).size by omega),
        Option.bind_eq_bind, Option.bind_some]
      rw [ih (by omega) (by omega), ← B.crc32.part_append, ← drop_drop]
      congr 2
      rw [← take_add, Nat.add_sub_cancel' (Nat.min_le_right _ _)]

theorem calculateCrcLoop_none (hb : 0 < b) (hfuel : remain ≤ fuel) (hpos : 0 < remain)
    (h : (B.geom s).size < off + remain) (crc : Nat) : calculateCrcLoop f s b fuel off remain crc = none := by
  induction fuel generalizing off remain crc with
  | zero => omega
  | succ fuel ih =>
    simp only [calculateCrcLoop, if_pos hpos, readsiz_eq]
    rcases Nat.lt_or_ge (B.geom s).size (min b remain + off) with hr | hr
    · rw [flashPartitionRead_none hr]
      rfl
    · rw [flashPartitionRead_some hr]
      exact ih (by omega) (by omega) (by omega) _

end

/-- The CRC that `calculate_crc` returns for `remain` bytes of the partition `p`. -/
def crcOf (B : Board) (p : List UInt8) (remain : Nat) : Nat :=
  if 12 + remain ≤ p.length then B.crc32.part ((p.drop 12).take remain) 0xffffffff ^^^ 0xffffffff
  else 0xffffffff

theorem calculateCrc_eq (h : ImgHeader) : calculateCrc f s h = crcOf B (f.part s) h.remain := by
  have hb : 0 < (B.geom s).blocksize := by have := (B.geom s).four_le; omega
  have hsz := (B.geom s).header_le_size
  rw [calculateCrc, crcOf, f.length_part]
  split_ifs with hle
  · rw [← ImgHeader.remain, calculateCrcLoop_eq f s hb .refl hle]
  · rw [← ImgHeader.remain, calculateCrcLoop_none f s hb .refl (by omega) (by omega)]

def validImage (B : Board) (p : List UInt8) : Bool :=
  validateImageHeader B (.ofBytes p) && crcOf B p (ImgHeader.ofBytes p).remain == (ImgHeader.ofBytes p).crc

theorem validateImage_eq : validateImage f s = validImage B (f.part s) := by
  simp only [validateImage, getImageHeader_eq, calculateCrc_eq, validImage, Flash.hdr]

theorem validImage_iff {p : List UInt8} :
    validImage B p = true ↔
      ((ImgHeader.ofBytes p).magic = headerMagic ∨ isInternalMagic (ImgHeader.ofBytes p).magic = true) ∧
        (ImgHeader.ofBytes p).identifier = B.platformIdentifier ∧
        crcOf B p (ImgHeader.ofBytes p).remain = (ImgHeader.ofBytes p).crc := by
  simp only [validImage, validateImageHeader, Bool.and_eq_true, Bool.or_eq_true, beq_iff_eq, and_assoc]

variable {p q : List UInt8}

theorem crc_congr (h : Agree q p 4 16) : (ImgHeader.ofBytes q).crc = (ImgHeader.ofBytes p).crc :=
  field_congr (h.mono (by decide) (by decide))

theorem size_congr (h : Agree q p 4 16) :
    (ImgHeader.ofBytes q).length = (ImgHeader.ofBytes p).length ∧
      (ImgHeader.ofBytes q).remain = (ImgHeader.ofBytes p).remain := by
  have hs : (ImgHeader.ofBytes q).size = (ImgHeader.ofBytes p).size := field_congr (h.mono (by decide) (by decide))
  have hh : (ImgHeader.ofBytes q).headerSize = (ImgHeader.ofBytes p).headerSize :=
    field_congr (h.mono (by decide) (by decide))
  exact ⟨by rw [ImgHeader.length, hs, hh]; rfl, by rw [ImgHeader.remain, hs, hh]; rfl⟩

/-- A valid image is valid in another slot that has its bytes, its own magic and the identifier. -/
theorem validImage_of_agree (hp : validImage B p = true)
    (hm : (ImgHeader.ofBytes q).magic = headerMagic ∨ isInternalMagic (ImgHeader.ofBytes q).magic = true)
    (hid : (ImgHeader.ofBytes q).identifier = B.platformIdentifier) (h : Agree q p 4 16)
    (hin : 12 + (ImgHeader.ofBytes p).remain ≤ p.length →
      12 + (ImgHeader.ofBytes p).remain ≤ q.length ∧ Agree q p 12 (12 + (ImgHeader.ofBytes p).remain))
    (hout : p.length < 12 + (ImgHeader.ofBytes p).remain → q.length < 12 + (ImgHeader.ofBytes p).remain) :
    validImage B q = true := by
  refine validImage_iff.mpr ⟨hm, hid, ?_⟩
  rw [(size_congr h).2, crc_congr h, ← (validImage_iff.mp hp).2.2, crcOf, crcOf]
  by_cases hle : 12 + (ImgHeader.ofBytes p).remain ≤ p.length
  · obtain ⟨hq, ha⟩ := hin hle
    rw [if_pos hle, if_pos hq, ha.range]
  · rw [if_neg hle, if_neg (Nat.not_le.mpr (hout (by omega)))]

end NuttxApps.Nxboot
