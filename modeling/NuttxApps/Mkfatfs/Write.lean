import NuttxApps.Framework.Bytes
import NuttxApps.Framework.Writes
import NuttxApps.Mkfatfs.Layout

/-!
# Writing a FAT file system

`does_writefatfs` says what is on the medium afterwards, sector by sector. The copy of the FAT32 boot record should have
a reserved sector of its own (`Reserved`); `reserved_iff` says for which parameters this is so.
-/

namespace NuttxApps.Mkfatfs

open Option

open Bytes (splice leBytes)
open Writes (Does writeRange)

structure Ident where
  (hidsec volumeid createtime : Nat)
  volumelabel : Vector UInt8 11

def bootcodeblob : List UInt8 :=
  [0x0e, 0x1f, 0xbe, 0x00, 0x7c, 0xac, 0x22, 0xc0, 0x74, 0x0b, 0x56,
   0xb4, 0x0e, 0xbb, 0x07, 0x00, 0xcd, 0x10, 0x5e, 0xeb, 0xf0, 0x32,
   0xe4, 0xcd, 0x16, 0xcd, 0x19, 0xeb, 0xfe, 0x54, 0x68, 0x69, 0x73,
   0x20, 0x69, 0x73, 0x20, 0x6e, 0x6f, 0x74, 0x20, 0x61, 0x20, 0x62,
   0x6f, 0x6f, 0x74, 0x61, 0x62, 0x6c, 0x65, 0x20, 0x64, 0x69, 0x73,
   0x6b, 0x2e, 0x20, 0x20, 0x50, 0x6c, 0x65, 0x61, 0x73, 0x65, 0x20,
   0x69, 0x6e, 0x73, 0x65, 0x72, 0x74, 0x20, 0x61, 0x20, 0x62, 0x6f,
   0x6f, 0x74, 0x61, 0x62, 0x6c, 0x65, 0x20, 0x66, 0x6c, 0x6f, 0x70,
   0x70, 0x79, 0x20, 0x61, 0x6e, 0x64, 0x0d, 0x0a, 0x70, 0x72, 0x65,
   0x73, 0x73, 0x20, 0x61, 0x6e, 0x79, 0x20, 0x6b, 0x65, 0x79, 0x20,
   0x74, 0x6f, 0x20, 0x74, 0x72, 0x79, 0x20, 0x61, 0x67, 0x61, 0x69,
   0x6e, 0x20, 0x2e, 0x2e, 0x2e, 0x0d, 0x0a, 0x00]

open List

section

variable (big : Bool) (p : Params) (id : Ident) (out : Layout)

/-- `FAT_PUTUINT16` and `FAT_PUTUINT32`, in the byte order of the target. -/
def put (off w v : Nat) (sect : List UInt8) : List UInt8 :=
  splice sect off (if big then (leBytes w v).reverse else leBytes w v)

def zeros : List UInt8 := replicate p.sectorsize 0

def bootcode : Nat := if out.fattype = .fat32 then 90 else 62

def initmbr16 (sect : List UInt8) : List UInt8 :=
  let sect := put big 22 2 out.nfatsects sect
  let sect := splice sect 38 [0x29]
  let sect := put big 39 4 id.volumeid sect
  let sect := splice sect 43 id.volumelabel.toList
  if out.fattype = .fat12 then splice sect 54 [0x46, 0x41, 0x54, 0x31, 0x32, 0x20, 0x20, 0x20]
  else splice sect 54 [0x46, 0x41, 0x54, 0x31, 0x36, 0x20, 0x20, 0x20]

def initmbr32 (sect : List UInt8) : List UInt8 :=
  let sect := put big 36 4 out.nfatsects sect
  let sect := put big 44 4 2 sect
  let sect := put big 48 2 1 sect
  let sect := put big 50 2 out.backupboot sect
  let sect := splice sect 66 [0x29]
  let sect := put big 67 4 id.volumeid sect
  let sect := splice sect 71 id.volumelabel.toList
  splice sect 82 [0x46, 0x41, 0x54, 0x33, 0x32, 0x20, 0x20, 0x20]

def initmbr : List UInt8 :=
  let sect := splice (zeros p) 0 [0xeb, UInt8.ofNat (bootcode out - 2), 0x90]
  let sect := splice sect 3 [0x4e, 0x55, 0x54, 0x54, 0x58, 0x20, 0x20, 0x20]
  let sect := put big 11 2 p.sectorsize sect
  let sect := put big 13 1 (2 ^ out.clustshift) sect
  let sect := put big 14 2 out.rsvdseccount sect
  let sect := put big 16 1 p.nfats sect
  let sect := put big 17 2 out.rootdirentries sect
  let sect := if p.nsectors ≥ 65536 then put big 32 4 p.nsectors sect else put big 19 2 p.nsectors sect
  let sect := splice sect 21 [0xf8]
  let sect := put big 24 2 63 sect
  let sect := put big 26 2 255 sect
  let sect := put big 28 4 id.hidsec sect
  let sect := if out.fattype ≠ .fat32 then initmbr16 big id out sect else initmbr32 big id out sect
  let sect := splice sect (bootcode out) bootcodeblob
  let sect := splice sect (bootcode out + 3) [UInt8.ofNat (bootcode out + 29)]
  put big 510 2 0xaa55 sect

def initfsinfo : List UInt8 :=
  let sect := put big 0 4 0x41615252 (zeros p)
  let sect := put big 484 4 0x61417272 sect
  let sect := put big 488 4 (sub32 out.nclusters 1) sect
  let sect := put big 492 4 2 sect
  put big 508 4 0xaa550000 sect

/-- A sector of a FAT: the entries of the first clusters are marked in the first one. -/
def fatsect (sectno : Nat) : List UInt8 :=
  if sectno = 0 then
    let sect := match out.fattype with
      | .fat12 => splice (zeros p) 0 (replicate 3 0xff)
      | .fat16 => splice (zeros p) 0 (replicate 4 0xff)
      | _ => splice (splice (zeros p) 0 (replicate 8 0xff)) 8 [0xf8, 0xff, 0xff, 0xff]
    splice sect 0 [0xf8]
  else zeros p

/-- `mkfatfs_initrootdir`: the first entry holds the volume label, unless it is blank. -/
def initrootdir (sectno : Nat) : List UInt8 :=
  if sectno = 0 then
    let sect := if id.volumelabel ≠ Vector.replicate 11 0x20 then splice (zeros p) 0 id.volumelabel.toList else zeros p
    let sect := splice sect 11 [0x08]
    let sect := put big 14 2 (id.createtime % 2 ^ 16) sect
    let sect := put big 22 2 (id.createtime % 2 ^ 16) sect
    let sect := put big 16 2 (id.createtime / 2 ^ 16) sect
    put big 24 2 (id.createtime / 2 ^ 16) sect
  else zeros p

end

abbrev Medium := Nat → List UInt8

section

variable (fault : Nat → Option Int) (big : Bool) (p : Params) (id : Ident) (out : Layout)

/-- `mkfatfs_devwrite`: the sector number has to be in range, and the driver can fail. -/
def devwrite (sect : List UInt8) (sector : Nat) (m : Medium) : Except Int Medium :=
  if p.nsectors ≤ sector then .error (-29)
  else match fault sector with
    | some err => .error err
    | none => .ok fun s => if s = sector then sect else m s

def writebackup (m : Medium) : Except Int Medium :=
  if out.backupboot ≠ 0 then devwrite fault p (initmbr big p id out) out.backupboot m else .ok m

def write32 (m : Medium) : Except Int Medium :=
  if out.fattype = .fat32 then do
    let m ← writebackup fault big p id out m
    devwrite fault p (initfsinfo big p out) 1 m
  else .ok m

def writembr (m : Medium) : Except Int Medium := do
  let m ← devwrite fault p (initmbr big p id out) 0 m
  let m ← writeRange (devwrite fault p) (fun _ => zeros p) 1 (out.rsvdseccount - 1) m
  write32 fault big p id out m

def writefats : Nat → Medium → Except Int Medium
  | 0, m => .ok m
  | n + 1, m => do
    let m ← writefats n m
    writeRange (devwrite fault p) (fatsect p out) (out.rsvdseccount + n * out.nfatsects) out.nfatsects m

def writefat (m : Medium) : Except Int Medium := writefats fault p out p.nfats m

def rootstart : Nat := (out.rsvdseccount + p.nfats * out.nfatsects) % 2 ^ 32

def writerootdir (m : Medium) : Except Int Medium :=
  writeRange (devwrite fault p) (initrootdir big p id) (rootstart p out) out.nrootdirsects m

def writefatfs (m : Medium) : Except Int Medium := do
  let m ← writembr fault big p id out m
  let m ← writefat fault p out m
  writerootdir fault big p id out m

def Writable (sector : Nat) : Prop := sector < p.nsectors ∧ fault sector = none

def range (img : Nat → List UInt8) (offset n s : Nat) : Option (List UInt8) :=
  if offset ≤ s ∧ s < offset + n then some (img (s - offset)) else none

def reserved (s : Nat) : Option (List UInt8) :=
  if out.fattype = .fat32 ∧ s = 1 then some (initfsinfo big p out)
  else if out.fattype = .fat32 ∧ out.backupboot ≠ 0 ∧ s = out.backupboot then some (initmbr big p id out)
  else if s = 0 then some (initmbr big p id out)
  else if s < out.rsvdseccount then some (zeros p)
  else none

def fats (n s : Nat) : Option (List UInt8) :=
  range (fun i => fatsect p out (i % out.nfatsects)) out.rsvdseccount (n * out.nfatsects) s

def written (s : Nat) : Option (List UInt8) :=
  (range (initrootdir big p id) (rootstart p out) out.nrootdirsects s).or
    ((fats p out p.nfats s).or (reserved big p id out s))

theorem does_devwrite (sect : List UInt8) (sector : Nat) :
    Does (Writable fault p) (devwrite fault p sect sector) fun s => if s = sector then some sect else none := by
  intro m m'
  have hm : (fun s => (if s = sector then some sect else none).getD (m s)) =
      fun s => if s = sector then sect else m s := by
    funext s
    split <;> rfl
  have hok : (∀ s, (if s = sector then some sect else none : Option _).isSome → Writable fault p s) ↔
      Writable fault p sector := by
    constructor
    · intro h
      exact h sector (by rw [if_pos rfl]; rfl)
    · intro h s hs
      split_ifs at hs with heq
      · rwa [heq]
      · cases hs
  rw [devwrite, hm, hok, Writable]
  split_ifs with hout
  · exact ⟨nofun, fun h => absurd h.1.1 (Nat.not_lt.mpr hout)⟩
  · split
    · rename_i err herr
      rw [herr]
      exact ⟨nofun, fun h => by cases h.1.2⟩
    · rename_i herr
      constructor
      · rintro ⟨⟩
        exact ⟨⟨Nat.lt_of_not_le hout, herr⟩, rfl⟩
      · rintro ⟨-, rfl⟩
        rfl

theorem does_range (img : Nat → List UInt8) (offset n : Nat) :
    Does (Writable fault p) (writeRange (devwrite fault p) img offset n) (range img offset n) :=
  Writes.does_writeRange (does_devwrite fault p) img offset n

theorem does_writembr : Does (Writable fault p) (writembr fault big p id out) (reserved big p id out) := by
  have hfirst := does_devwrite fault p (initmbr big p id out) 0
  have hzeros := does_range fault p (fun _ => zeros p) 1 (out.rsvdseccount - 1)
  have hcopy := (does_devwrite fault p (initmbr big p id out) out.backupboot).ite (c := out.backupboot ≠ 0)
  have hinfo := does_devwrite fault p (initfsinfo big p out) 1
  refine (hfirst.comp (hzeros.comp ((hcopy.comp hinfo).ite (c := out.fattype = .fat32)))).congr fun s => ?_
  rw [reserved, range]
  grind

theorem does_writefats (n : Nat) : Does (Writable fault p) (writefats fault p out n) (fats p out n) := by
  induction n with
  | zero =>
    refine Writes.does_nothing.congr fun s => ?_
    rw [fats, range, if_neg (by omega)]
  | succ n ih =>
    refine (ih.comp (does_range fault p _ _ _)).congr fun s => ?_
    rw [fats, fats, range, range, range, Nat.succ_mul]
    by_cases hlast : out.rsvdseccount + n * out.nfatsects ≤ s ∧ s < out.rsvdseccount + n * out.nfatsects + out.nfatsects
    · have hsect : (s - out.rsvdseccount) % out.nfatsects = s - (out.rsvdseccount + n * out.nfatsects) := by
        rw [show s - out.rsvdseccount = s - (out.rsvdseccount + n * out.nfatsects) + n * out.nfatsects by omega,
          Nat.add_mul_mod_self_right, Nat.mod_eq_of_lt (by omega)]
      rw [if_pos hlast, some_or, if_pos (by omega), hsect]
    · rw [if_neg hlast, none_or]
      exact if_congr (by omega) rfl rfl

theorem does_writefatfs : Does (Writable fault p) (writefatfs fault big p id out) (written big p id out) :=
  ((does_writembr fault big p id out).comp
    ((does_writefats fault p out p.nfats).comp (does_range fault p _ _ _))).congr fun _ => or_assoc

end

/-! ## The reserved sectors of FAT32 -/

def areas (p : Params) (out : Layout) : List (Nat × Nat) :=
  [(0, 1), (1, 1)] ++ (if out.backupboot ≠ 0 then [(out.backupboot, 1)] else []) ++
    (List.range p.nfats).map fun i => (out.rsvdseccount + i * out.nfatsects, out.nfatsects)

structure Reserved (p : Params) (out : Layout) (m : Medium) : Prop where
  disjoint : (areas p out).Pairwise fun a b => a.1 + a.2 ≤ b.1 ∨ b.1 + b.2 ≤ a.1
  inside : ∀ a ∈ areas p out, a.1 + a.2 ≤ p.nsectors
  copy : out.backupboot ≠ 0 → m out.backupboot = m 0

section

variable {p : Params} {out : Layout}

theorem backupSector_bounds {r : Nat} (hr : 2 ≤ r) :
    1 ≤ backupSector p r ∧ backupSector p r < r ∧ (backupSector p r = 1 ↔ r = 2) := by
  unfold backupSector
  split
  · rw [if_pos rfl]
    split <;> omega
  · rw [if_neg (by omega)]
    omega

theorem rsvd32_eq_two : rsvd32 p = 2 ↔ p.rsvdseccount = 1 ∨ p.rsvdseccount = 2 := by
  rw [rsvd32]
  split
  · split <;> omega
  · omega

theorem pairwise_areas (hlo : 2 ≤ out.backupboot) (hhi : out.backupboot < out.rsvdseccount) :
    (areas p out).Pairwise fun a b => a.1 + a.2 ≤ b.1 ∨ b.1 + b.2 ≤ a.1 := by
  have hfats : ((List.range p.nfats).map fun i => (out.rsvdseccount + i * out.nfatsects, out.nfatsects)).Pairwise
      fun a b => a.1 + a.2 ≤ b.1 ∨ b.1 + b.2 ≤ a.1 := by
    refine List.pairwise_map.mpr (List.pairwise_lt_range.imp fun {i j} hij => .inl ?_)
    have := Nat.mul_le_mul_right out.nfatsects hij
    rw [Nat.succ_mul] at this
    omega
  have hbehind : ∀ a ∈ (List.range p.nfats).map fun i => (out.rsvdseccount + i * out.nfatsects, out.nfatsects),
      out.rsvdseccount ≤ a.1 := by
    intro a ha
    obtain ⟨i, -, rfl⟩ := mem_map.mp ha
    exact Nat.le_add_right _ _
  rw [areas, if_pos (by omega)]
  simp only [cons_append, nil_append, pairwise_cons, mem_cons]
  refine ⟨?_, ?_, ?_, hfats⟩
  · rintro a (rfl | rfl | ha)
    · exact .inl .refl
    · exact .inl (by omega)
    · exact .inl (by have := hbehind a ha; omega)
  · rintro a (rfl | ha)
    · exact .inl hlo
    · exact .inl (by have := hbehind a ha; omega)
  · intro a ha
    exact .inl (by have := hbehind a ha; omega)

theorem areas_le (hlo : 2 ≤ out.rsvdseccount) (hhi : out.backupboot < out.rsvdseccount) {a : Nat × Nat}
    (ha : a ∈ areas p out) : a.1 + a.2 ≤ out.rsvdseccount + p.nfats * out.nfatsects := by
  rw [areas, List.mem_append, List.mem_append] at ha
  rcases ha with (ha | ha) | ha
  · rcases mem_pair.mp ha with rfl | rfl <;> omega
  · split at ha
    · rw [mem_singleton.mp ha]
      omega
    · cases ha
  · obtain ⟨i, hi, rfl⟩ := List.mem_map.mp ha
    have := Nat.mul_le_mul_right out.nfatsects (List.mem_range.mp hi)
    rw [Nat.succ_mul] at this
    omega

variable {big : Bool} {id : Ident}

theorem reserved_zero (big : Bool) (p : Params) (id : Ident) (out : Layout) :
    reserved big p id out 0 = some (initmbr big p id out) := by
  rw [reserved, if_neg (by omega), if_pos rfl]
  split <;> rfl

theorem written_isSome {s : Nat} (hs : s < out.rsvdseccount + p.nfats * out.nfatsects) :
    (written big p id out s).isSome := by
  rw [written, isSome_or, isSome_or]
  by_cases h : s < out.rsvdseccount
  · have : (reserved big p id out s).isSome := by
      rw [reserved]
      repeat' split
      all_goals rfl
    rw [this, Bool.or_true, Bool.or_true]
  · have : (fats p out p.nfats s).isSome := by
      rw [fats, range, if_pos (by omega)]
      rfl
    rw [this, Bool.true_or, Bool.or_true]

theorem written_of_lt {s : Nat} (hs : s < out.rsvdseccount)
    (htotal : out.rsvdseccount + p.nfats * out.nfatsects ≤ p.nsectors) :
    written big p id out s = reserved big p id out s := by
  have := p.nsectors_lt
  rw [written, rootstart, Nat.mod_eq_of_lt (by omega), range, if_neg (by omega), fats, range, if_neg (by omega),
    none_or, none_or]

theorem total_le_of_writefatfs {fault : Nat → Option Int} {m m' : Medium} (hr : 0 < out.rsvdseccount)
    (hwrite : writefatfs fault big p id out m = .ok m') : out.rsvdseccount + p.nfats * out.nfatsects ≤ p.nsectors := by
  obtain ⟨hok, -⟩ := (does_writefatfs fault big p id out m m').mp hwrite
  have := (hok (out.rsvdseccount + p.nfats * out.nfatsects - 1) (written_isSome (by omega))).1
  omega

theorem lt_of_written {s : Nat} (hr : 2 ≤ out.rsvdseccount) (hb : out.backupboot < out.rsvdseccount)
    (htotal : out.rsvdseccount + p.nfats * out.nfatsects + out.nrootdirsects ≤ p.nsectors)
    (hs : (written big p id out s).isSome) : s < p.nsectors := by
  have hlt := p.nsectors_lt
  refine Nat.lt_of_not_le fun hge => ?_
  rw [written, rootstart, Nat.mod_eq_of_lt (by omega), range, if_neg (by omega), fats, range, if_neg (by omega),
    none_or, none_or, reserved, if_neg (by omega), if_neg (by omega), if_neg (by omega),
    if_neg (by omega)] at hs
  cases hs

theorem writefatfs_of_fits {ll : Bool} (hconfig : configfatfs ll p = some out) (htype : out.fattype = .fat32)
    (hfits : Fits p out) (big : Bool) (id : Ident) (m : Medium) :
    writefatfs (fun _ => none) big p id out m = .ok fun s => (written big p id out s).getD (m s) := by
  obtain ⟨hrsvd, hbackup, hroot⟩ := configfatfs_fat32 hconfig htype
  have hr := (rsvd32_pos p).1
  obtain ⟨-, hlt, -⟩ := backupSector_bounds (p := p) hr
  have hsum := hfits.sectors
  have hrange := hfits.range
  rw [htype] at hrange
  have hclusters : 1 * 2 ^ out.clustshift ≤ out.nclusters * 2 ^ out.clustshift :=
    Nat.mul_le_mul_right _ (Nat.le_trans (by decide) hrange.1)
  refine (does_writefatfs _ big p id out m _).mpr ⟨fun s hs => ⟨?_, rfl⟩, rfl⟩
  exact lt_of_written (by omega) (by omega) (by omega) hs

end

/-- Formatting with FAT32 gives a copy of the boot record in a sector of its own just if 1 or 2 reserved sectors are not
asked for. -/
theorem reserved_iff (ll big : Bool) (fault : Nat → Option Int) (p : Params) (id : Ident) (out : Layout)
    (m m' : Medium) (hconfig : configfatfs ll p = some out) (htype : out.fattype = .fat32)
    (hwrite : writefatfs fault big p id out m = .ok m') :
    Reserved p out m' ↔ p.rsvdseccount ≠ 1 ∧ p.rsvdseccount ≠ 2 := by
  obtain ⟨hrsvd, hbackup, -⟩ := configfatfs_fat32 hconfig htype
  obtain ⟨hpos, hlt, htwo⟩ := backupSector_bounds (p := p) (rsvd32_pos p).1
  rw [rsvd32_eq_two] at htwo
  have hr : 2 ≤ out.rsvdseccount := hrsvd ▸ (rsvd32_pos p).1
  rw [← hbackup] at hpos hlt htwo
  rw [← hrsvd] at hlt
  constructor
  · intro h
    have hne : out.backupboot ≠ 1 := by
      intro hone
      have hpair := h.disjoint
      rw [areas, hone] at hpair
      simp at hpair
    omega
  · rintro ⟨hone, htwo'⟩
    have htotal := total_le_of_writefatfs (by omega) hwrite
    obtain ⟨-, rfl⟩ := (does_writefatfs fault big p id out m m').mp hwrite
    refine ⟨pairwise_areas (by omega) hlt, fun a ha => Nat.le_trans (areas_le hr hlt ha) htotal, fun hb => ?_⟩
    have hcopy : reserved big p id out out.backupboot = some (initmbr big p id out) := by
      rw [reserved, if_neg (by omega), if_pos ⟨htype, hb, rfl⟩]
    rw [written_of_lt hlt htotal, written_of_lt (by omega) htotal, hcopy, reserved_zero, getD_some, getD_some]

def blank : Ident := ⟨0, 0, 0, Vector.replicate 11 0x20⟩

theorem fits_volume32 : ∃ out, configfatfs true (volume32 0) = some out ∧ out.fattype = .fat32 ∧
    Fits (volume32 0) out := by
  refine ⟨_, rfl, rfl, ?_, ?_, ?_, ?_⟩
  all_goals decide

theorem reserved_default : ∃ out m', configfatfs true (volume32 0) = some out ∧ out.fattype = .fat32 ∧
    writefatfs (fun _ => none) false (volume32 0) blank out (fun _ => []) = .ok m' ∧ Reserved (volume32 0) out m' := by
  obtain ⟨out, hconfig, htype, hfits⟩ := fits_volume32
  have hwrite := writefatfs_of_fits hconfig htype hfits false blank fun _ => []
  exact ⟨out, _, hconfig, htype, hwrite, (reserved_iff _ _ _ _ _ _ _ _ hconfig htype hwrite).mpr (by decide)⟩

/-- With one reserved sector given, the FSINFO sector overwrites the copy of the boot record. -/
theorem backup_overwritten : ∃ out m', configfatfs true (volume32 1) = some out ∧ out.fattype = .fat32 ∧
    writefatfs (fun _ => none) false (volume32 1) blank out (fun _ => []) = .ok m' ∧ out.backupboot = 1 ∧
    m' out.backupboot ≠ m' 0 ∧ ¬ Reserved (volume32 1) out m' := by
  have hconfig : configfatfs true (volume32 1) = some ⟨.fat32, 0, 2, 539, 68919, 1, 0, 1⟩ := rfl
  have hfits : Fits (volume32 1) ⟨.fat32, 0, 2, 539, 68919, 1, 0, 1⟩ := by
    refine ⟨?_, ?_, ?_, ?_⟩
    all_goals decide
  have hwrite := writefatfs_of_fits hconfig rfl hfits false blank fun _ => []
  have hne : ((written false (volume32 1) blank ⟨.fat32, 0, 2, 539, 68919, 1, 0, 1⟩ 1).getD []) ≠
      (written false (volume32 1) blank ⟨.fat32, 0, 2, 539, 68919, 1, 0, 1⟩ 0).getD [] := by
    intro h
    exact absurd (congrArg (·[0]?) h) (by decide +kernel)
  exact ⟨_, _, hconfig, rfl, hwrite, rfl, hne, fun h => hne (h.copy (by decide))⟩

end NuttxApps.Mkfatfs
