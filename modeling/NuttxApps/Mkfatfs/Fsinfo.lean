import NuttxApps.Mkfatfs.Write

/-!
# The free clusters of a FAT32 volume

The boot record, the FAT and the FSINFO sector are read from the medium alone, and `Accounted` says that the last agrees
with the other two. It never does (`not_accounted`): it gives cluster 2 as the first free one, which is the root
directory. And the number of free clusters is one too small (`freeClusters_of_fits`), as a cluster is set aside for the
root directory twice.
-/

namespace NuttxApps.Mkfatfs

open Bytes (splice load store Agree)
open List

section

variable (big : Bool)

def get (off w : Nat) (sect : List UInt8) : Nat := load big ((sect.drop off).take w)

structure BootRecord where
  (bytespersec secperclus resvdseccount numfats totsec fatsz32 fsinfo : Nat)

def bootRecord (sect : List UInt8) : BootRecord where
  bytespersec := get big 11 2 sect
  secperclus := get big 13 1 sect
  resvdseccount := get big 14 2 sect
  numfats := get big 16 1 sect
  -- `MBR_TOTSEC32` counts only if `MBR_TOTSEC16` is 0
  totsec := if get big 19 2 sect ≠ 0 then get big 19 2 sect else get big 32 4 sect
  fatsz32 := get big 36 4 sect
  fsinfo := get big 48 2 sect

def BootRecord.dataClusters (b : BootRecord) : Nat :=
  (b.totsec - (b.resvdseccount + b.numfats * b.fatsz32)) / b.secperclus

variable (b : BootRecord) (m : Medium)

def fatEntry (c : Nat) : Option Nat :=
  if 4 * c / b.bytespersec < b.fatsz32 then
    some (get big (4 * c % b.bytespersec) 4 (m (b.resvdseccount + 4 * c / b.bytespersec)) % 2 ^ 28)
  else none

/-- The number of clusters with the entry 0; the first cluster is 2. -/
def freeClusters : Nat := (range' 2 b.dataClusters).countP fun c => fatEntry big b m c == some 0

/-- The FSINFO sector has the number of free clusters, and the cluster it names is free. -/
structure Accounted (big : Bool) (m : Medium) : Prop where
  count : get big 488 4 (m (bootRecord big (m 0)).fsinfo) = freeClusters big (bootRecord big (m 0)) m
  next : fatEntry big (bootRecord big (m 0)) m (get big 492 4 (m (bootRecord big (m 0)).fsinfo)) = some 0

end

section

variable {big : Bool} {off off' w w' v : Nat} {sect : List UInt8}

@[simp] theorem length_put : (put big off w v sect).length = sect.length := Bytes.length_splice ..

@[simp] theorem length_zeros (p : Params) : (zeros p).length = p.sectorsize := length_replicate

theorem get_splice_of_disjoint {d : List UInt8} (h : off + w ≤ off' ∨ off' + d.length ≤ off) :
    get big off w (splice sect off' d) = get big off w sect := by
  have hagree : Agree (splice sect off' d) sect off (off + w) := by
    intro i hlo hhi
    rw [Bytes.getElem?_splice, if_neg (by omega)]
  rw [get, get, hagree.range]

theorem get_put_of_disjoint (h : off + w ≤ off' ∨ off' + w' ≤ off) :
    get big off w (put big off' w' v sect) = get big off w sect :=
  get_splice_of_disjoint (d := store big w' v) (by rwa [Bytes.length_store])

theorem get_splice_self {d : List UInt8} (hoff : off + d.length ≤ sect.length) :
    get big off d.length (splice sect off d) = load big d := by
  rw [get, Bytes.splice_eq_append off hoff, append_assoc,
    drop_left' (length_take_of_le (Nat.le_trans (Nat.le_add_right _ _) hoff)), take_left]

theorem get_put (hoff : off + w ≤ sect.length) (hv : v < 256 ^ w) : get big off w (put big off w v sect) = v := by
  have hroom : off + (store big w v).length ≤ sect.length := by rwa [Bytes.length_store]
  have hget : get big off (store big w v).length (splice sect off (store big w v)) = v := by
    rw [get_splice_self hroom, Bytes.load_store big hv]
  rwa [Bytes.length_store] at hget

theorem load_replicate_zero (n : Nat) : load big (replicate n 0) = 0 := by
  have hle : Bytes.le (replicate n 0) = 0 := by
    induction n with
    | zero => rfl
    | succ n ih => rw [replicate_succ, Bytes.le, ih]; rfl
  rw [load, reverse_replicate, ite_self, hle]

theorem get_zeros (p : Params) : get big off w (zeros p) = 0 := by
  rw [get, zeros, drop_replicate, take_replicate, load_replicate_zero]

end

section

variable {ll big : Bool} {p : Params} {id : Ident} {out : Layout}

theorem bootRecord_initmbr (htype : out.fattype = .fat32) (hshift : out.clustshift ≤ 7)
    (hrsvd : out.rsvdseccount < 2 ^ 16) (hfatsz : out.nfatsects < 2 ^ 32) :
    bootRecord big (initmbr big p id out) =
      ⟨p.sectorsize, 2 ^ out.clustshift, out.rsvdseccount, p.nfats, p.nsectors, out.nfatsects, 1⟩ := by
  have hlo := sectorsize_ge p
  have hhi := sectorsize_le p
  have hfats := p.nfats_le
  have hsectors := p.nsectors_lt
  have hclus : 2 ^ out.clustshift ≤ 2 ^ 7 := Nat.pow_le_pow_right (by decide) hshift
  simp only [bootRecord, initmbr, initmbr32, bootcode, htype, ne_eq, not_true_eq_false, if_false, if_true]
  by_cases hwide : p.nsectors ≥ 65536
  · simp only [if_pos hwide]
    simp (disch := first | decide | omega | (simp only [length_put, Bytes.length_splice, length_zeros]; omega) | fail)
      only [get_put_of_disjoint, get_splice_of_disjoint, get_put, get_zeros, not_true_eq_false, if_false]
  · simp only [if_neg hwide]
    simp (disch := first | decide | omega | (simp only [length_put, Bytes.length_splice, length_zeros]; omega) | fail)
      only [get_put_of_disjoint, get_splice_of_disjoint, get_put, get_zeros]
    by_cases hzero : p.nsectors = 0
    · rw [hzero, if_neg (by simp)]
    · rw [if_pos hzero]

theorem get_initfsinfo : get big 488 4 (initfsinfo big p out) = sub32 out.nclusters 1 ∧
    get big 492 4 (initfsinfo big p out) = 2 := by
  have hlo := sectorsize_ge p
  have hcount : sub32 out.nclusters 1 < 2 ^ 32 := Nat.mod_lt _ (by decide)
  simp only [initfsinfo]
  constructor
  all_goals
    simp (disch := first | decide | omega | (simp only [length_put, length_zeros]; omega) | fail)
      only [get_put_of_disjoint, get_put]

theorem get_fatsect_root (htype : out.fattype = .fat32) : get big 8 4 (fatsect p out 0) % 2 ^ 28 ≠ 0 := by
  have hlo := sectorsize_ge p
  have hroot : get big 8 4 (fatsect p out 0) = load big [0xf8, 0xff, 0xff, 0xff] := by
    have hroom : 8 + 4 ≤ (splice (zeros p) 0 (replicate 8 0xff)).length := by
      rw [Bytes.length_splice, length_zeros]
      omega
    rw [fatsect, if_pos rfl, htype, get_splice_of_disjoint (.inr (by decide))]
    exact get_splice_self (d := [0xf8, 0xff, 0xff, 0xff]) hroom
  rw [hroot]
  cases big <;> decide

theorem get_fatsect_of_gt (htype : out.fattype = .fat32) {c : Nat} (hc : 2 < c) :
    get big (4 * c % p.sectorsize) 4 (fatsect p out (4 * c / p.sectorsize)) = 0 := by
  rw [fatsect]
  split_ifs with hfirst
  · have hoff : 4 * c % p.sectorsize = 4 * c := by
      have := Nat.div_add_mod (4 * c) p.sectorsize
      rwa [hfirst, Nat.mul_zero, zero_add] at this
    rw [htype, hoff, get_splice_of_disjoint (.inr (by simp; omega)), get_splice_of_disjoint (.inr (by simp; omega)),
      get_splice_of_disjoint (.inr (by simp; omega)), get_zeros]
  · exact get_zeros p

end

/-! ## The medium after formatting -/

section

variable {ll big : Bool} {fault : Nat → Option Int} {p : Params} {id : Ident} {out : Layout} {m m' : Medium}

theorem eq_of_written (hwrite : writefatfs fault big p id out m = .ok m') {s : Nat} {sect : List UInt8}
    (hs : written big p id out s = some sect) : m' s = sect := by
  obtain ⟨-, rfl⟩ := (does_writefatfs fault big p id out m m').mp hwrite
  show (written big p id out s).getD (m s) = sect
  rw [hs, Option.getD_some]

theorem fat_of_writefatfs (hr : 0 < out.rsvdseccount) (hwrite : writefatfs fault big p id out m = .ok m') {i : Nat}
    (hi : i < out.nfatsects) : m' (out.rsvdseccount + i) = fatsect p out i := by
  have htotal := total_le_of_writefatfs hr hwrite
  have hlt := p.nsectors_lt
  have hfats : out.nfatsects ≤ p.nfats * out.nfatsects := Nat.le_mul_of_pos_left _ p.nfats_pos
  refine eq_of_written hwrite ?_
  rw [written, rootstart, Nat.mod_eq_of_lt (by omega), range, if_neg (by omega), Option.none_or, fats, range,
    if_pos (by omega), Nat.add_sub_cancel_left, Nat.mod_eq_of_lt hi, Option.some_or]

variable (hconfig : configfatfs ll p = some out) (htype : out.fattype = .fat32)
  (hwrite : writefatfs fault big p id out m = .ok m')

include hconfig htype hwrite

theorem bootRecord_of_writefatfs : bootRecord big (m' 0) =
    ⟨p.sectorsize, 2 ^ out.clustshift, out.rsvdseccount, p.nfats, p.nsectors, out.nfatsects, 1⟩ := by
  obtain ⟨hrsvd, -⟩ := configfatfs_fat32 hconfig htype
  obtain ⟨c, -, -, -, -, -, -, -, hshift, -⟩ := configfatfs_cases hconfig
  have hr := rsvd32_pos p
  have htotal := total_le_of_writefatfs (by omega) hwrite
  have hlt := p.nsectors_lt
  have hfats : out.nfatsects ≤ p.nfats * out.nfatsects := Nat.le_mul_of_pos_left _ p.nfats_pos
  have hboot : m' 0 = initmbr big p id out :=
    eq_of_written hwrite (by rw [written_of_lt (by omega) htotal, reserved_zero])
  rw [hboot]
  exact bootRecord_initmbr htype hshift (by omega) (by omega)

theorem fsinfo_of_writefatfs : (bootRecord big (m' 0)).fsinfo = 1 ∧ m' 1 = initfsinfo big p out := by
  obtain ⟨hrsvd, -⟩ := configfatfs_fat32 hconfig htype
  have hr := rsvd32_pos p
  have htotal := total_le_of_writefatfs (by omega) hwrite
  constructor
  · rw [bootRecord_of_writefatfs hconfig htype hwrite]
  · exact eq_of_written hwrite (by rw [written_of_lt (by omega) htotal, reserved, if_pos ⟨htype, rfl⟩])

theorem fatEntry_of_writefatfs (c : Nat) : fatEntry big (bootRecord big (m' 0)) m' c =
    if 4 * c / p.sectorsize < out.nfatsects then
      some (get big (4 * c % p.sectorsize) 4 (fatsect p out (4 * c / p.sectorsize)) % 2 ^ 28)
    else none := by
  obtain ⟨hrsvd, -⟩ := configfatfs_fat32 hconfig htype
  have hr := rsvd32_pos p
  rw [bootRecord_of_writefatfs hconfig htype hwrite, fatEntry]
  split_ifs with hin
  · rw [fat_of_writefatfs (by omega) hwrite hin]
  · rfl

theorem root_not_free : fatEntry big (bootRecord big (m' 0)) m' 2 ≠ some 0 := by
  have hlo := sectorsize_ge p
  rw [fatEntry_of_writefatfs hconfig htype hwrite]
  split
  · rw [show 4 * 2 % p.sectorsize = 8 from Nat.mod_eq_of_lt (by omega), Nat.div_eq_of_lt (show 4 * 2 < _ by omega)]
    exact fun h => get_fatsect_root htype (Option.some.inj h)
  · simp

theorem free_of_gt {c : Nat} (hc : 2 < c) (hin : 4 * c < out.nfatsects * p.sectorsize) :
    fatEntry big (bootRecord big (m' 0)) m' c = some 0 := by
  rw [fatEntry_of_writefatfs hconfig htype hwrite, if_pos (Nat.div_lt_of_lt_mul (by rwa [mul_comm p.sectorsize])),
    get_fatsect_of_gt htype hc, Nat.zero_mod]

omit htype hwrite in
/-- One more cluster fits behind the FATs than `mkfatfs_tryfat32` counts, and the FAT has an entry for it. -/
theorem nclusters_of_fits (htype : out.fattype = .fat32) (hfits : Fits p out) :
    (p.nsectors - (out.rsvdseccount + p.nfats * out.nfatsects)) / 2 ^ out.clustshift = out.nclusters + 1 ∧
      4 * (out.nclusters + 3) ≤ out.nfatsects * p.sectorsize := by
  obtain ⟨c, hsize, hnclusters, hrsvd, -, -, hfound, hstart, hshift, hgiven, hfails⟩ := configfatfs_cases hconfig
  have hroomy := fun h => (fits32_iff h hsize hnclusters hrsvd hstart hshift hgiven (hfails h) hfound).mp hfits
  have hrange := hfits.range
  rw [htype] at hfound hrange
  rw [hsize, hnclusters, hrsvd]
  cases hfound with
  | empty _ _ _ hzero => exact absurd hrange.1 (by rw [hnclusters, hzero]; decide)
  | fat32 h32 hc hs =>
    replace hroomy := hroomy h32
    rw [Roomy, if_pos h32] at hroomy
    have hpow : 2 ^ out.clustshift ≤ 128 := two_pow_le hshift
    have hone : 1 ≤ 2 ^ out.clustshift := Nat.one_le_two_pow
    have hn := p.nfats_le
    have hlt := p.nsectors_lt
    have hr := rsvd32_pos p
    have havail := avail32_eq hroomy.1 hshift
    obtain ⟨hroom, -⟩ := hroomy
    rw [minclust32] at hroom
    have hle := nfatsect32_le p ll out.clustshift (show p.nfats ≤ avail32 p out.clustshift by omega)
    obtain ⟨-, hmax⟩ := hs.fits hle (by omega) (by decide)
    have hentries := entries32 (hs.size ▸ Nat.le_trans hmax (Nat.min_le_left _ _))
    have hclusters := hs.nclusters_eq hle (by omega)
    rw [← hs.size] at hclusters hle
    refine ⟨?_, by omega⟩
    rw [hclusters, ← Nat.add_div_right _ hone, hc]
    congr 1
    omega

theorem freeClusters_of_fits (hfits : Fits p out) :
    freeClusters big (bootRecord big (m' 0)) m' = get big 488 4 (m' 1) + 1 := by
  obtain ⟨hdata, hentries⟩ := nclusters_of_fits hconfig htype hfits
  have hrange := hfits.range
  rw [htype] at hrange
  have hmin : minclust32 ≤ out.nclusters := hrange.1
  have hmax : out.nclusters ≤ maxclust32 := hrange.2
  rw [minclust32] at hmin
  rw [maxclust32] at hmax
  have hclusters : (bootRecord big (m' 0)).dataClusters = out.nclusters + 1 := by
    rw [bootRecord_of_writefatfs hconfig htype hwrite]
    exact hdata
  have hrest : (range' 3 out.nclusters).countP
      (fun c => fatEntry big (bootRecord big (m' 0)) m' c == some 0) = out.nclusters := by
    rw [countP_eq_length.mpr, length_range']
    intro c hc
    obtain ⟨hlo, hhi⟩ := mem_range'_1.mp hc
    rw [free_of_gt hconfig htype hwrite (by omega) (by omega)]
    rfl
  rw [freeClusters, hclusters, range'_succ, countP_cons_of_neg, hrest,
    (fsinfo_of_writefatfs hconfig htype hwrite).2, get_initfsinfo.1, sub32_eq (by omega) (by omega)]
  · omega
  · simpa using root_not_free hconfig htype hwrite

end

theorem not_accounted (ll big : Bool) (fault : Nat → Option Int) (p : Params) (id : Ident) (out : Layout)
    (m m' : Medium) (hconfig : configfatfs ll p = some out) (htype : out.fattype = .fat32)
    (hwrite : writefatfs fault big p id out m = .ok m') : ¬ Accounted big m' := by
  intro h
  obtain ⟨hone, hinfo⟩ := fsinfo_of_writefatfs hconfig htype hwrite
  have hnext := h.next
  rw [hone, hinfo, get_initfsinfo.2] at hnext
  exact root_not_free hconfig htype hwrite hnext

theorem not_accounted_default : ∃ out m', configfatfs true (volume32 0) = some out ∧ out.fattype = .fat32 ∧
    writefatfs (fun _ => none) false (volume32 0) blank out (fun _ => []) = .ok m' ∧ ¬ Accounted false m' := by
  obtain ⟨out, hconfig, htype, hfits⟩ := fits_volume32
  have hwrite := writefatfs_of_fits hconfig htype hfits false blank fun _ => []
  exact ⟨out, _, hconfig, htype, hwrite, not_accounted _ _ _ _ _ _ _ _ hconfig htype hwrite⟩

/-- Of 68890 clusters all but one are free; the FSINFO sector says 68888, and names the cluster that is not. -/
theorem fsinfo_off_by_one : ∃ out m', configfatfs true (volume32 0) = some out ∧ out.fattype = .fat32 ∧
    writefatfs (fun _ => none) false (volume32 0) blank out (fun _ => []) = .ok m' ∧
    get false 488 4 (m' 1) = 68888 ∧ freeClusters false (bootRecord false (m' 0)) m' = 68889 ∧
    get false 492 4 (m' 1) = 2 ∧ fatEntry false (bootRecord false (m' 0)) m' 2 ≠ some 0 ∧ ¬ Accounted false m' := by
  have hconfig : configfatfs true (volume32 0) = some ⟨.fat32, 0, 32, 539, 68889, 1, 0, 6⟩ := rfl
  have hfits : Fits (volume32 0) ⟨.fat32, 0, 32, 539, 68889, 1, 0, 6⟩ := by
    refine ⟨?_, ?_, ?_, ?_⟩
    all_goals decide
  obtain ⟨m', hwrite⟩ : ∃ m', writefatfs (fun _ => none) false (volume32 0) blank
      ⟨.fat32, 0, 32, 539, 68889, 1, 0, 6⟩ (fun _ => []) = .ok m' :=
    ⟨_, writefatfs_of_fits hconfig rfl hfits false blank _⟩
  obtain ⟨hone, hinfo⟩ := fsinfo_of_writefatfs hconfig rfl hwrite
  have hcount : sub32 68889 1 = 68888 := by decide
  have hfree := freeClusters_of_fits hconfig rfl hwrite hfits
  rw [hinfo, get_initfsinfo.1, hcount, show 68888 + 1 = 68889 by decide] at hfree
  refine ⟨_, m', hconfig, rfl, hwrite, ?_, hfree, ?_, root_not_free hconfig rfl hwrite, fun h => ?_⟩
  · rw [hinfo, get_initfsinfo.1, hcount]
  · rw [hinfo, get_initfsinfo.2]
  · have heq := h.count
    rw [hfree, hone, hinfo, get_initfsinfo.1, hcount] at heq
    exact absurd heq (by decide)

end NuttxApps.Mkfatfs
