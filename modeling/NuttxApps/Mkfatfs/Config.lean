import Mathlib.Algebra.Group.Nat.Defs

/-!
# The configuration of a FAT file system

All numbers of `mkfatfs_configfatfs` are 32-bit unsigned ones, so sums and differences wrap. The size of a FAT solves a
linear equation, with 64-bit numbers only where the target has them (`ll`), and the search tries one cluster size after
the other until one of the FAT types fits.
-/

namespace NuttxApps.Mkfatfs

inductive FatType
  | auto
  | fat12
  | fat16
  | fat32
deriving DecidableEq

/-- The format parameters and the geometry of the device; a cluster shift of 255 and zeroes elsewhere mean that the
value is selected here. -/
structure Params where
  nfats : Nat
  fattype : FatType
  (clustshift backupboot rootdirentries rsvdseccount nsectors sectshift : Nat)
  nfats_pos : 1 ≤ nfats
  nfats_le : nfats ≤ 4
  clustshift_le : clustshift ≤ 7 ∨ clustshift = 255
  rootdirentries_le : rootdirentries = 0 ∨ 16 ≤ rootdirentries ∧ rootdirentries ≤ 32767
  rsvdseccount_le : rsvdseccount ≤ 32767
  backupboot_lt : backupboot < 2 ^ 16
  nsectors_lt : nsectors < 2 ^ 32
  sectshift_ge : 9 ≤ sectshift
  sectshift_le : sectshift ≤ 12

def Params.sectorsize (p : Params) : Nat := 2 ^ p.sectshift

def maxclust12 : Nat := 2 ^ 12 - 16

def minclust16 : Nat := maxclust12 + 1

def maxclust16 : Nat := 2 ^ 16 - 16

def minclust32 : Nat := 65524

def maxclust32 : Nat := 2 ^ 28 - 16

def sub32 (a b : Nat) : Nat := (a + 2 ^ 32 - b % 2 ^ 32) % 2 ^ 32

section

variable (ll : Bool) (p : Params)

def quotient (number denom : Nat) : Nat :=
  if ll then (number + denom - 1) / denom else (number + denom - 1) % 2 ^ 32 / denom

section

variable (clustshift navailsects : Nat)

def nfatsect12 : Nat :=
  if ll ∨ navailsects ≤ 0x55555555 - 2 ^ (clustshift + 1) then
    quotient ll ((2 * navailsects + navailsects + 2 ^ (clustshift + 2) + 2 ^ (clustshift + 1)) % 2 ^ 32)
      (2 * p.nfats + p.nfats + p.sectorsize * 2 ^ (clustshift + 1))
  else 0

def nfatsect16 : Nat :=
  if clustshift = 0 then quotient ll ((navailsects + 2) % 2 ^ 32) (p.nfats + p.sectorsize / 2)
  else
    quotient ll ((navailsects + 2 ^ (clustshift + 1)) % 2 ^ 32) (p.nfats + p.sectorsize * 2 ^ (clustshift - 1))

def nfatsect32 : Nat :=
  if clustshift = 0 then quotient ll ((navailsects + 3) % 2 ^ 32) (p.nfats + p.sectorsize / 4)
  else if clustshift = 1 then quotient ll ((navailsects + 6) % 2 ^ 32) (p.nfats + p.sectorsize / 2)
  else
    quotient ll ((navailsects + 2 ^ (clustshift + 1) + 2 ^ clustshift) % 2 ^ 32)
      (p.nfats + p.sectorsize * 2 ^ (clustshift - 2))

end

structure FatConfig where
  (navailsects nfatsects nclusters rsvdseccount : Nat)

/-- The common part of the three attempts: the clusters beside FATs of `nfatsects` sectors, and whether the FAT has
entries for them and `slots` more. -/
def tryfat (clustshift nfatsects slots minnclusters maxnclusters : Nat) (c : FatConfig) : FatConfig × Bool :=
  if 0 < nfatsects then
    let nclusters := sub32 c.navailsects (p.nfats * nfatsects) / 2 ^ clustshift
    ({ c with nfatsects := nfatsects, nclusters := nclusters },
      decide ¬ ((nclusters + slots) % 2 ^ 32 > maxnclusters ∨ nclusters < minnclusters))
  else ({ c with nfatsects := nfatsects }, true)

section

variable (clustshift : Nat) (c : FatConfig)

def tryfat12 : FatConfig × Bool :=
  let nfatsects := nfatsect12 ll p clustshift c.navailsects
  tryfat p clustshift nfatsects 2 0 (min (nfatsects * 2 ^ (p.sectshift + 1) % 2 ^ 32 / 3) maxclust12) c

def tryfat16 : FatConfig × Bool :=
  let nfatsects := nfatsect16 ll p clustshift c.navailsects
  tryfat p clustshift nfatsects 2 minclust16 (min (nfatsects * 2 ^ (p.sectshift - 1) % 2 ^ 32) maxclust16) c

def tryfat32 : FatConfig × Bool :=
  let nfatsects := nfatsect32 ll p clustshift c.navailsects
  tryfat p clustshift nfatsects 3 minclust32 (min (nfatsects * 2 ^ (p.sectshift - 2) % 2 ^ 32) maxclust32) c

end

/-- An attempt that fails leaves no FAT and no clusters. -/
def attempt (r : FatConfig × Bool) : FatConfig :=
  if r.2 then r.1 else { r.1 with nfatsects := 0, nclusters := 0 }

structure Configs where
  (c12 c16 c32 : FatConfig)

section

variable (clustshift : Nat)

def config12 (s : Configs) : FatConfig :=
  if p.fattype = .auto ∨ p.fattype = .fat12 then attempt (tryfat12 ll p clustshift s.c12) else s.c12

def config16 (s : Configs) : FatConfig :=
  if p.fattype = .auto ∨ p.fattype = .fat16 then attempt (tryfat16 ll p clustshift s.c16) else s.c16

def config32 (c : FatConfig) : FatConfig × Bool :=
  tryfat32 ll p clustshift
    { c with navailsects := sub32 (sub32 p.nsectors (2 ^ clustshift)) c.rsvdseccount }

/-- A round of the loop of `mkfatfs_clustersearch`. FAT32 is tried if it is requested only. -/
def round (s : Configs) : Option (FatType × FatConfig) × Configs :=
  let c12 := config12 ll p clustshift s
  let c16 := config16 ll p clustshift s
  if c12.nclusters ≠ 0 ∨ c16.nclusters ≠ 0 then
    if p.fattype = .auto ∧ c16.nclusters > c12.nclusters ∨ p.fattype = .fat16 then
      (some (.fat16, c16), ⟨c12, c16, s.c32⟩)
    else (some (.fat12, c12), ⟨c12, c16, s.c32⟩)
  else if p.fattype = .fat32 then
    let r := config32 ll p clustshift s.c32
    if r.2 then (some (.fat32, r.1), ⟨c12, c16, r.1⟩) else (none, ⟨c12, c16, attempt r⟩)
  else (none, ⟨c12, c16, s.c32⟩)

end

def searchLoop : Nat → Nat → Configs → Option (Nat × FatType × FatConfig)
  | 0, clustshift, s => (round ll p clustshift s).1.map fun r => (clustshift, r)
  | n + 1, clustshift, s =>
    match (round ll p clustshift s).1 with
    | some r => some (clustshift, r)
    | none => searchLoop n (clustshift + 1) (round ll p clustshift s).2

def clustersearchlimits : Nat × Nat :=
  if p.clustshift = 255 then
    (if p.nsectors < 2048 then 0
      else if p.nsectors < 4096 then 1
      else if p.nsectors < 8192 then 2
      else if p.nsectors < 16384 then 3
      else if p.nsectors < 32768 then 4
      else 5, 7)
  else (p.clustshift, p.clustshift)

def rsvd16 : Nat := if p.rsvdseccount ≠ 0 then p.rsvdseccount else 1

def rsvd32 : Nat :=
  if p.rsvdseccount ≠ 0 then if p.rsvdseccount < 2 then 2 else p.rsvdseccount else 32

/-- The number of root directory entries, 512 if not specified. -/
def rootdirentries : Nat := if p.rootdirentries = 0 then 512 else p.rootdirentries

/-- `fv_nrootdirsects` for FAT12 and FAT16, a number of 8 bits. -/
def nrootdirsects : Nat := (rootdirentries p * 2 ^ 5 + p.sectorsize - 1) / 2 ^ p.sectshift % 2 ^ 8

def avail16 : Nat := sub32 (sub32 p.nsectors (nrootdirsects p)) (rsvd16 p)

def initial : Configs :=
  let navailsects := if p.fattype ≠ .fat32 then avail16 p else 0
  ⟨⟨navailsects, 0, 0, rsvd16 p⟩, ⟨navailsects, 0, 0, rsvd16 p⟩, ⟨0, 0, 0, rsvd32 p⟩⟩

def clustersearch : Option (Nat × FatType × FatConfig) :=
  let limits := clustersearchlimits p
  searchLoop ll p (limits.2 - limits.1) limits.1 (initial p)

structure Layout where
  fattype : FatType
  (clustshift rsvdseccount nfatsects nclusters nrootdirsects rootdirentries backupboot : Nat)

def backupSector (rsvdseccount : Nat) : Nat :=
  let backupboot := if p.backupboot ≤ 1 ∨ p.backupboot ≥ rsvdseccount then 0 else p.backupboot
  if backupboot = 0 then
    if 2 ≤ rsvdseccount then if 6 < rsvdseccount - 1 then 6 else rsvdseccount - 1 else 0
  else backupboot

def configfatfs : Option Layout :=
  (clustersearch ll p).map fun (clustshift, fattype, c) =>
    if fattype ≠ .fat32 then
      ⟨fattype, clustshift, c.rsvdseccount, c.nfatsects, c.nclusters, nrootdirsects p, rootdirentries p, p.backupboot⟩
    else
      ⟨fattype, clustshift, c.rsvdseccount, c.nfatsects, c.nclusters, 2 ^ clustshift, 0,
        backupSector p c.rsvdseccount⟩

end

variable {ll : Bool} {p : Params} {clustshift nfatsects slots minnclusters maxnclusters n : Nat}
  {c : FatConfig} {s : Configs} {t : FatType}

def remaining (p : Params) (clustshift navailsects nfatsects : Nat) : Nat :=
  sub32 navailsects (p.nfats * nfatsects) / 2 ^ clustshift

structure Sized (p : Params) (clustshift navailsects nfatsects slots minnclusters maxnclusters : Nat)
    (c : FatConfig) : Prop where
  pos : 0 < nfatsects
  size : c.nfatsects = nfatsects
  clusters : c.nclusters = remaining p clustshift navailsects nfatsects
  le : (c.nclusters + slots) % 2 ^ 32 ≤ maxnclusters
  ge : minnclusters ≤ c.nclusters

theorem tryfat_cases {r : FatConfig × Bool} (hr : tryfat p clustshift nfatsects slots minnclusters maxnclusters c = r) :
    nfatsects = 0 ∧ r = ({ c with nfatsects := 0 }, true) ∨
      r.2 = true ∧ Sized p clustshift c.navailsects nfatsects slots minnclusters maxnclusters r.1 ∨
      r.2 = false ∧ 0 < nfatsects ∧
        (maxnclusters < (remaining p clustshift c.navailsects nfatsects + slots) % 2 ^ 32 ∨
          remaining p clustshift c.navailsects nfatsects < minnclusters) := by
  subst hr
  unfold tryfat
  by_cases hpos : 0 < nfatsects
  · rw [if_pos hpos]
    by_cases hfail : (remaining p clustshift c.navailsects nfatsects + slots) % 2 ^ 32 > maxnclusters ∨
        remaining p clustshift c.navailsects nfatsects < minnclusters
    · exact .inr (.inr ⟨decide_eq_false (not_not_intro hfail), hpos, hfail⟩)
    · refine .inr (.inl ⟨decide_eq_true hfail, hpos, rfl, rfl, ?_, ?_⟩)
      · exact Nat.le_of_not_lt fun h => hfail (.inl h)
      · exact Nat.le_of_not_lt fun h => hfail (.inr h)
  · rw [if_neg hpos, Nat.eq_zero_of_not_pos hpos]
    exact .inl ⟨rfl, rfl⟩

theorem attempt_ne_zero {a : Nat} (ha : c.navailsects = a) (hc : c.nclusters = 0)
    (h : (attempt (tryfat p clustshift nfatsects slots minnclusters maxnclusters c)).nclusters ≠ 0) :
    Sized p clustshift a nfatsects slots minnclusters maxnclusters
      (attempt (tryfat p clustshift nfatsects slots minnclusters maxnclusters c)) := by
  subst ha
  generalize hr : tryfat p clustshift nfatsects slots minnclusters maxnclusters c = r at *
  rcases tryfat_cases hr with ⟨-, rfl⟩ | ⟨hok, hs⟩ | ⟨hok, -⟩
  · exact absurd hc h
  · rwa [attempt, if_pos hok]
  · rw [attempt, if_neg (by rw [hok]; nofun)] at h
    exact absurd rfl h

theorem attempt_rsvdseccount {a r : Nat} (ha : c.navailsects = a) (hr : c.rsvdseccount = r) :
    (attempt (tryfat p clustshift nfatsects slots minnclusters maxnclusters c)).navailsects = a ∧
      (attempt (tryfat p clustshift nfatsects slots minnclusters maxnclusters c)).rsvdseccount = r := by
  unfold attempt tryfat
  split <;> split <;> exact ⟨ha, hr⟩

def avail32 (p : Params) (clustshift : Nat) : Nat :=
  sub32 (sub32 p.nsectors (2 ^ clustshift)) (rsvd32 p)

inductive Found (ll : Bool) (p : Params) (clustshift : Nat) : FatType → FatConfig → Prop
  | fat12 {c : FatConfig} : p.fattype ≠ .fat32 → c.nclusters ≠ 0 → c.rsvdseccount = rsvd16 p →
    Sized p clustshift (avail16 p) (nfatsect12 ll p clustshift (avail16 p)) 2 0
      (min (nfatsect12 ll p clustshift (avail16 p) * 2 ^ (p.sectshift + 1) % 2 ^ 32 / 3) maxclust12) c →
    Found ll p clustshift .fat12 c
  | fat16 {c : FatConfig} : p.fattype ≠ .fat32 → c.rsvdseccount = rsvd16 p →
    Sized p clustshift (avail16 p) (nfatsect16 ll p clustshift (avail16 p)) 2 minclust16
      (min (nfatsect16 ll p clustshift (avail16 p) * 2 ^ (p.sectshift - 1) % 2 ^ 32) maxclust16) c →
    Found ll p clustshift .fat16 c
  | fat32 {c : FatConfig} : p.fattype = .fat32 → c.rsvdseccount = rsvd32 p →
    Sized p clustshift (avail32 p clustshift) (nfatsect32 ll p clustshift (avail32 p clustshift)) 3 minclust32
      (min (nfatsect32 ll p clustshift (avail32 p clustshift) * 2 ^ (p.sectshift - 2) % 2 ^ 32) maxclust32) c →
    Found ll p clustshift .fat32 c
  /-- The size of the FAT32 FAT came out as 0. -/
  | empty {c : FatConfig} : p.fattype = .fat32 → c.rsvdseccount = rsvd32 p →
    nfatsect32 ll p clustshift (avail32 p clustshift) = 0 → c.nclusters = 0 → Found ll p clustshift .fat32 c

def Fails32 (ll : Bool) (p : Params) (clustshift : Nat) : Prop :=
  let nfatsects := nfatsect32 ll p clustshift (avail32 p clustshift)
  let nclusters := remaining p clustshift (avail32 p clustshift) nfatsects
  0 < nfatsects ∧ (min (nfatsects * 2 ^ (p.sectshift - 2) % 2 ^ 32) maxclust32 < (nclusters + 3) % 2 ^ 32 ∨
    nclusters < minclust32)

structure Ready (p : Params) (s : Configs) : Prop where
  c12 : s.c12.nclusters = 0
  c16 : s.c16.nclusters = 0
  c32 : s.c32.nclusters = 0
  avail12 : p.fattype ≠ .fat32 → s.c12.navailsects = avail16 p
  avail16 : p.fattype ≠ .fat32 → s.c16.navailsects = Mkfatfs.avail16 p
  rsvd12 : s.c12.rsvdseccount = rsvd16 p
  rsvd16 : s.c16.rsvdseccount = Mkfatfs.rsvd16 p
  rsvd32 : s.c32.rsvdseccount = Mkfatfs.rsvd32 p

section

variable (ll : Bool) (clustshift : Nat)

/-- What a round leaves of a configuration for FAT12 or FAT16. -/
structure Kept (t : FatType) (c : FatConfig) : Prop where
  avail : p.fattype ≠ .fat32 → c.navailsects = avail16 p
  rsvd : c.rsvdseccount = rsvd16 p
  found : c.nclusters ≠ 0 → Found ll p clustshift t c

theorem ne_fat32 (h : p.fattype = .auto ∨ p.fattype = t) (ht : t ≠ .fat32) : p.fattype ≠ .fat32 := by
  rcases h with h | h <;> rw [h]
  · nofun
  · exact ht

theorem kept_config12 (hs : Ready p s) : Kept (p := p) ll clustshift .fat12 (config12 ll p clustshift s) := by
  rw [config12]
  split
  · rename_i htype
    have hne := ne_fat32 htype nofun
    have havail := hs.avail12 hne
    simp only [tryfat12, havail]
    obtain ⟨havail', hrsvd⟩ := attempt_rsvdseccount havail hs.rsvd12
    exact ⟨fun _ => havail', hrsvd, fun hpos => .fat12 hne hpos hrsvd (attempt_ne_zero havail hs.c12 hpos)⟩
  · exact ⟨hs.avail12, hs.rsvd12, fun h => absurd hs.c12 h⟩

theorem kept_config16 (hs : Ready p s) : Kept (p := p) ll clustshift .fat16 (config16 ll p clustshift s) := by
  rw [config16]
  split
  · rename_i htype
    have hne := ne_fat32 htype nofun
    have havail := hs.avail16 hne
    simp only [tryfat16, havail]
    obtain ⟨havail', hrsvd⟩ := attempt_rsvdseccount havail hs.rsvd16
    exact ⟨fun _ => havail', hrsvd, fun hpos => .fat16 hne hrsvd (attempt_ne_zero havail hs.c16 hpos)⟩
  · exact ⟨hs.avail16, hs.rsvd16, fun h => absurd hs.c16 h⟩

theorem config32_cases (htype : p.fattype = .fat32) (hc : c.nclusters = 0) (hrsvd : c.rsvdseccount = rsvd32 p)
    {r : FatConfig × Bool} (hr : config32 ll p clustshift c = r) :
    r.2 = true ∧ Found ll p clustshift .fat32 r.1 ∨
      r.2 = false ∧ Fails32 ll p clustshift ∧ (attempt r).nclusters = 0 ∧ (attempt r).rsvdseccount = rsvd32 p := by
  obtain ⟨navailsects, nfatsects, nclusters, rsvdseccount⟩ := c
  obtain rfl : nclusters = 0 := hc
  obtain rfl : rsvdseccount = rsvd32 p := hrsvd
  have hkept : r.1.rsvdseccount = rsvd32 p := by
    rw [← hr, config32, tryfat32, tryfat]
    split <;> rfl
  rcases tryfat_cases hr with ⟨hzero, rfl⟩ | ⟨hok, hsized⟩ | ⟨hok, hfail⟩
  · exact .inl ⟨rfl, .empty htype rfl hzero rfl⟩
  · exact .inl ⟨hok, .fat32 htype hkept hsized⟩
  · rw [attempt, if_neg (by rw [hok]; nofun)]
    exact .inr ⟨hok, hfail, rfl, hkept⟩

theorem round_cases (hs : Ready p s) :
    (∃ t c, (round ll p clustshift s).1 = some (t, c) ∧ Found ll p clustshift t c) ∨
      (round ll p clustshift s).1 = none ∧ Ready p (round ll p clustshift s).2 ∧
        (p.fattype = .fat32 → Fails32 ll p clustshift) := by
  obtain ⟨ha12, hr12, hf12⟩ := kept_config12 ll clustshift hs
  obtain ⟨ha16, hr16, hf16⟩ := kept_config16 ll clustshift hs
  have h16 : p.fattype = .fat16 → (config12 ll p clustshift s).nclusters = 0 := by
    intro htype
    rw [config12, htype, if_neg (by simp)]
    exact hs.c12
  have h12 : p.fattype ≠ .auto → p.fattype ≠ .fat16 → (config16 ll p clustshift s).nclusters = 0 := by
    intro hauto hne
    rw [config16, if_neg (by simp [hauto, hne])]
    exact hs.c16
  rw [round]
  generalize config12 ll p clustshift s = c12 at *
  generalize config16 ll p clustshift s = c16 at *
  by_cases hany : c12.nclusters ≠ 0 ∨ c16.nclusters ≠ 0
  · rw [if_pos hany]
    by_cases hsel : p.fattype = .auto ∧ c16.nclusters > c12.nclusters ∨ p.fattype = .fat16
    · rw [if_pos hsel]
      refine .inl ⟨.fat16, c16, rfl, hf16 ?_⟩
      rcases hsel with ⟨-, hgt⟩ | htype
      · omega
      · exact hany.resolve_left (not_not_intro (h16 htype))
    · rw [if_neg hsel]
      refine .inl ⟨.fat12, c12, rfl, hf12 ?_⟩
      by_cases hauto : p.fattype = .auto
      · have : ¬ c16.nclusters > c12.nclusters := fun h => hsel (.inl ⟨hauto, h⟩)
        omega
      · exact hany.resolve_right (not_not_intro (h12 hauto fun h => hsel (.inr h)))
  · rw [if_neg hany]
    obtain ⟨hz12, hz16⟩ : c12.nclusters = 0 ∧ c16.nclusters = 0 := by omega
    by_cases htype : p.fattype = .fat32
    · rw [if_pos htype]
      rcases config32_cases ll clustshift htype hs.c32 hs.rsvd32 rfl with ⟨hok, hf⟩ | ⟨hok, hfail, hz32, hr32⟩
      · rw [if_pos hok]
        exact .inl ⟨.fat32, _, rfl, hf⟩
      · rw [if_neg (by rw [hok]; nofun)]
        exact .inr ⟨rfl, ⟨hz12, hz16, hz32, ha12, ha16, hr12, hr16, hr32⟩, fun _ => hfail⟩
    · rw [if_neg htype]
      exact .inr ⟨rfl, ⟨hz12, hz16, hs.c32, ha12, ha16, hr12, hr16, hs.rsvd32⟩, fun h => absurd h htype⟩

end

theorem found_of_round (hs : Ready p s) (h : (round ll p clustshift s).1 = some (t, c)) :
    Found ll p clustshift t c := by
  rcases round_cases ll clustshift hs with ⟨t', c', hr, hf⟩ | ⟨hr, -, -⟩
  · rw [h] at hr
    cases hr
    exact hf
  · rw [h] at hr
    cases hr

theorem searchLoop_cases {start : Nat} (hs : Ready p s) (h : searchLoop ll p n start s = some (clustshift, t, c)) :
    start ≤ clustshift ∧ clustshift ≤ start + n ∧ Found ll p clustshift t c ∧
      (p.fattype = .fat32 → ∀ k, start ≤ k → k < clustshift → Fails32 ll p k) := by
  induction n generalizing start s with
  | zero =>
    obtain ⟨r, hr, heq⟩ := Option.map_eq_some_iff.mp h
    cases heq
    exact ⟨.refl, .refl, found_of_round hs hr, fun _ k _ _ => by omega⟩
  | succ n ih =>
    rw [searchLoop] at h
    cases hr : (round ll p start s).1 with
    | some r =>
      rw [hr] at h
      cases h
      exact ⟨.refl, Nat.le_add_right _ _, found_of_round hs hr, fun _ k _ _ => by omega⟩
    | none =>
      rw [hr] at h
      rcases round_cases ll start hs with ⟨t', c', hr', -⟩ | ⟨-, hready, hfail⟩
      · rw [hr] at hr'
        cases hr'
      · obtain ⟨hge, hle, hf, hfails⟩ := ih hready h
        refine ⟨by omega, by omega, hf, fun htype k hk hlt => ?_⟩
        rcases Nat.eq_or_lt_of_le hk with rfl | hk
        · exact hfail htype
        · exact hfails htype k hk hlt

def startshift (p : Params) : Nat := (clustersearchlimits p).1

variable {out : Layout} (h : configfatfs ll p = some out)

include h

theorem configfatfs_cases :
    ∃ c, out.nfatsects = c.nfatsects ∧ out.nclusters = c.nclusters ∧ out.rsvdseccount = c.rsvdseccount ∧
      (out.fattype ≠ .fat32 → out.rootdirentries = rootdirentries p) ∧
      (out.fattype = .fat32 → out.backupboot = backupSector p c.rsvdseccount ∧ out.nrootdirsects = 2 ^ out.clustshift) ∧
      Found ll p out.clustshift out.fattype c ∧ startshift p ≤ out.clustshift ∧ out.clustshift ≤ 7 ∧
      (p.clustshift ≠ 255 → out.clustshift = startshift p) ∧
      (p.fattype = .fat32 → ∀ k, startshift p ≤ k → k < out.clustshift → Fails32 ll p k) := by
  obtain ⟨⟨clustshift, t, c⟩, hsearch, rfl⟩ := Option.map_eq_some_iff.mp h
  have hready : Ready p (initial p) := ⟨rfl, rfl, rfl, fun h => if_pos h, fun h => if_pos h, rfl, rfl, rfl⟩
  obtain ⟨hge, hle, hf, hfails⟩ := searchLoop_cases hready hsearch
  have hlimits : (clustersearchlimits p).2 ≤ 7 ∧ (clustersearchlimits p).1 ≤ (clustersearchlimits p).2 ∧
      (p.clustshift ≠ 255 → (clustersearchlimits p).1 = (clustersearchlimits p).2) := by
    rw [clustersearchlimits]
    have := p.clustshift_le
    split
    · rename_i hauto
      refine ⟨.refl, ?_, fun h => absurd hauto h⟩
      repeat' split
      all_goals decide
    · exact ⟨by omega, .refl, fun _ => rfl⟩
  have hgiven : p.clustshift ≠ 255 → clustshift = startshift p := fun hne => by
    rw [startshift]
    omega
  have hseven : clustshift ≤ 7 := by omega
  dsimp only
  split
  · rename_i htype
    exact ⟨c, rfl, rfl, rfl, fun _ => rfl, fun h => absurd h htype, hf, hge, hseven, hgiven, hfails⟩
  · rename_i htype
    exact ⟨c, rfl, rfl, rfl, fun h => absurd h htype, fun _ => ⟨rfl, rfl⟩, hf, hge, hseven, hgiven, hfails⟩

theorem configfatfs_fat32 (htype : out.fattype = .fat32) :
    out.rsvdseccount = rsvd32 p ∧ out.backupboot = backupSector p (rsvd32 p) ∧
      out.nrootdirsects = 2 ^ out.clustshift := by
  obtain ⟨c, -, -, hrsvd, -, hfat32, hfound, -⟩ := configfatfs_cases h
  have hc : c.rsvdseccount = rsvd32 p := by
    rw [htype] at hfound
    cases hfound with
    | fat32 _ hc _ => exact hc
    | empty _ hc _ _ => exact hc
  rw [hrsvd, ← hc]
  exact ⟨rfl, hfat32 htype⟩

end NuttxApps.Mkfatfs
