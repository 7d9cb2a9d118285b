import NuttxApps.Mkfatfs.Config

/-!
# The layout fits the volume

`fits_iff` says for which parameters `mkfatfs_configfatfs` returns a layout that `Fits`, if it returns one. What remains
are the sizes of the root directory that do not fit into 8 bits, and the volumes for which the size of a FAT32 FAT comes
out as 0.
-/

namespace NuttxApps.Mkfatfs

def FatType.bits : FatType → Nat
  | .auto => 0
  | .fat12 => 12
  | .fat16 => 16
  | .fat32 => 32

def FatType.InRange (nclusters : Nat) : FatType → Prop
  | .auto => False
  | .fat12 => nclusters ≤ maxclust12
  | .fat16 => minclust16 ≤ nclusters ∧ nclusters ≤ maxclust16
  | .fat32 => minclust32 ≤ nclusters ∧ nclusters ≤ maxclust32

def rootsects (p : Params) (entries : Nat) : Nat := (entries * 32 + p.sectorsize - 1) / p.sectorsize

structure Fits (p : Params) (out : Layout) : Prop where
  sectors : out.rsvdseccount + p.nfats * out.nfatsects +
    (if out.fattype = .fat32 then 0 else rootsects p out.rootdirentries) +
    out.nclusters * 2 ^ out.clustshift ≤ p.nsectors
  entries : (out.nclusters + 2) * out.fattype.bits ≤ out.nfatsects * p.sectorsize * 8
  range : out.fattype.InRange out.nclusters

def denom32 (p : Params) (clustshift : Nat) : Nat := p.nfats + p.sectorsize * 2 ^ clustshift / 4

/-- The numerator in the size of a FAT32 FAT is not 2³², and with 32-bit numbers rounding up does not reach it. -/
def Size32 (ll : Bool) (p : Params) (clustshift : Nat) : Prop :=
  p.nsectors + 2 * 2 ^ clustshift + (if ll then 0 else denom32 p clustshift - 1) < 2 ^ 32 + rsvd32 p ∨
    2 ^ 32 + rsvd32 p < p.nsectors + 2 * 2 ^ clustshift

instance (ll : Bool) (p : Params) (clustshift : Nat) : Decidable (Size32 ll p clustshift) :=
  inferInstanceAs (Decidable (_ ∨ _))

def Roomy (ll : Bool) (p : Params) : Prop :=
  if p.fattype = .fat32 then rsvd32 p + minclust32 ≤ p.nsectors ∧ Size32 ll p (startshift p)
  else rootsects p (rootdirentries p) ≤ 255 ∧ rsvd16 p + rootsects p (rootdirentries p) + p.nfats < p.nsectors

section

variable {ll : Bool} {p : Params} {clustshift nfatsects slots minnclusters maxnclusters a b : Nat} {c : FatConfig}

theorem quotient_le (ll : Bool) (number denom : Nat) : quotient ll number denom ≤ (number + denom - 1) / denom := by
  rw [quotient]
  split
  · exact .refl
  · exact Nat.div_le_div_right (Nat.mod_le _ _)

theorem mul_quotient_le {n k e w number : Nat} (hn : 1 ≤ n) (ha : n ≤ a) (hnumber : number ≤ k * a + e)
    (hw : k * n + e ≤ w) (hpos : 0 < k) : n * quotient ll number (k * n + w) ≤ a := by
  have ht : 1 ≤ a / n := (Nat.one_le_div_iff hn).mpr ha
  have hlt : a < n * (a / n) + n := Nat.lt_mul_div_succ a hn
  have hnum : number ≤ (k * n + w) * (a / n) :=
    calc number ≤ k * a + e := hnumber
      _ ≤ k * (n * (a / n) + n) + e := Nat.add_le_add_right (Nat.mul_le_mul_left k (Nat.le_of_lt hlt)) e
      _ = k * n * (a / n) + (k * n + e) := by rw [Nat.mul_add, Nat.mul_assoc, Nat.add_assoc]
      _ ≤ k * n * (a / n) + w * 1 := by omega
      _ ≤ k * n * (a / n) + w * (a / n) := Nat.add_le_add_left (Nat.mul_le_mul_left w ht) _
      _ = (k * n + w) * (a / n) := (Nat.add_mul ..).symm
  have hq : quotient ll number (k * n + w) ≤ a / n := by
    refine Nat.le_trans (quotient_le ll number (k * n + w)) ?_
    rw [Nat.div_le_iff_le_mul (Nat.add_pos_left (Nat.mul_pos hpos hn) w), Nat.mul_comm (a / n)]
    omega
  exact Nat.le_trans (Nat.mul_le_mul_left n hq) (Nat.mul_div_le a n)

theorem sub32_eq (hb : b ≤ a) (ha : a < 2 ^ 32) : sub32 a b = a - b := by
  rw [sub32]
  omega

theorem sectorsize_ge (p : Params) : 512 ≤ p.sectorsize :=
  Nat.pow_le_pow_right (n := 2) (by decide) p.sectshift_ge

theorem sectorsize_le (p : Params) : p.sectorsize ≤ 4096 :=
  Nat.pow_le_pow_right (n := 2) (by decide) p.sectshift_le

section

variable (p : Params) (ll : Bool)

theorem nfatsect12_le (clustshift : Nat) (ha : p.nfats ≤ a) : p.nfats * nfatsect12 ll p clustshift a ≤ a := by
  have hss := sectorsize_ge p
  have hone : 1 ≤ 2 ^ clustshift := Nat.one_le_two_pow
  have hn := p.nfats_le
  rw [nfatsect12]
  split
  · have hdenom : 2 * p.nfats + p.nfats + p.sectorsize * 2 ^ (clustshift + 1) =
        3 * p.nfats + p.sectorsize * (2 * 2 ^ clustshift) := by
      rw [Nat.pow_succ']
      omega
    rw [hdenom]
    refine mul_quotient_le (e := 6 * 2 ^ clustshift) p.nfats_pos ha (Nat.le_trans (Nat.mod_le _ _) ?_) ?_ (by decide)
    · rw [Nat.pow_add, Nat.pow_succ]
      omega
    · calc 3 * p.nfats + 6 * 2 ^ clustshift ≤ 512 * (2 * 2 ^ clustshift) := by omega
        _ ≤ p.sectorsize * (2 * 2 ^ clustshift) := Nat.mul_le_mul_right _ hss
  · omega

theorem nfatsect16_eq (clustshift a : Nat) :
    nfatsect16 ll p clustshift a =
      quotient ll ((a + 2 * 2 ^ clustshift) % 2 ^ 32) (p.nfats + p.sectorsize * 2 ^ clustshift / 2) := by
  rw [nfatsect16]
  cases clustshift with
  | zero => rw [if_pos rfl, pow_zero, mul_one, mul_one]
  | succ k =>
    have hdenom : p.sectorsize * 2 ^ (k + 1) = p.sectorsize * 2 ^ k * 2 := by rw [Nat.pow_succ, mul_assoc]
    rw [if_neg (Nat.succ_ne_zero k), Nat.add_sub_cancel, hdenom, Nat.mul_div_cancel _ (by decide), Nat.pow_succ']

theorem nfatsect32_eq (clustshift a : Nat) :
    nfatsect32 ll p clustshift a = quotient ll ((a + 3 * 2 ^ clustshift) % 2 ^ 32) (denom32 p clustshift) := by
  rw [nfatsect32, denom32]
  match clustshift with
  | 0 => rw [if_pos rfl, Nat.pow_zero, Nat.mul_one, Nat.mul_one]
  | 1 =>
    have hdenom : p.sectorsize * 2 ^ 1 / 4 = p.sectorsize / 2 := by omega
    rw [if_neg (by decide), if_pos rfl, hdenom, show a + 3 * 2 ^ 1 = a + 6 from rfl]
  | k + 2 =>
    have hdenom : p.sectorsize * 2 ^ (k + 2) = p.sectorsize * 2 ^ k * 4 := by rw [Nat.pow_add, Nat.mul_assoc]
    have hnumber : a + 2 ^ (k + 2 + 1) + 2 ^ (k + 2) = a + 3 * 2 ^ (k + 2) := by
      omega
    rw [if_neg (by omega), if_neg (by omega), Nat.add_sub_cancel, hdenom, Nat.mul_div_cancel _ (by decide), hnumber]

/-- A FAT with an entry in `q` parts of a word, where `e` sectors more are counted. -/
theorem nfats_mul_quotient_le {e q : Nat} (clustshift : Nat) (ha : p.nfats ≤ a) (he : e ≤ 3) (hq : q = 2 ∨ q = 4) :
    p.nfats * quotient ll ((a + e * 2 ^ clustshift) % 2 ^ 32) (p.nfats + p.sectorsize * 2 ^ clustshift / q) ≤ a := by
  have hone : 1 ≤ 2 ^ clustshift := Nat.one_le_two_pow
  have hn := p.nfats_le
  have hw : 512 * 2 ^ clustshift ≤ p.sectorsize * 2 ^ clustshift := Nat.mul_le_mul_right _ (sectorsize_ge p)
  have hthree : e * 2 ^ clustshift ≤ 3 * 2 ^ clustshift := Nat.mul_le_mul_right _ he
  have hnumber : (a + e * 2 ^ clustshift) % 2 ^ 32 ≤ 1 * a + e * 2 ^ clustshift := by omega
  have h : p.nfats * quotient ll ((a + e * 2 ^ clustshift) % 2 ^ 32)
      (1 * p.nfats + p.sectorsize * 2 ^ clustshift / q) ≤ a :=
    mul_quotient_le p.nfats_pos ha hnumber (by rcases hq with rfl | rfl <;> omega) Nat.one_pos
  rwa [Nat.one_mul] at h

theorem nfatsect16_le (clustshift : Nat) (ha : p.nfats ≤ a) : p.nfats * nfatsect16 ll p clustshift a ≤ a := by
  rw [nfatsect16_eq]
  exact nfats_mul_quotient_le p ll clustshift ha (by decide) (.inl rfl)

theorem nfatsect32_le (clustshift : Nat) (ha : p.nfats ≤ a) : p.nfats * nfatsect32 ll p clustshift a ≤ a := by
  rw [nfatsect32_eq, denom32]
  exact nfats_mul_quotient_le p ll clustshift ha (by decide) (.inr rfl)

end

section

variable (h : Sized p clustshift a nfatsects slots minnclusters maxnclusters c) (hle : p.nfats * nfatsects ≤ a)

include h hle

theorem Sized.nclusters_eq (ha : a < 2 ^ 32) : c.nclusters = (a - p.nfats * nfatsects) / 2 ^ clustshift := by
  rw [h.clusters, remaining, sub32_eq hle ha]

theorem Sized.fits (ha : a + slots ≤ 2 ^ 32) (hpos : 0 < slots) :
    p.nfats * c.nfatsects + c.nclusters * 2 ^ clustshift ≤ a ∧ c.nclusters + slots ≤ maxnclusters := by
  have hfats : 1 ≤ p.nfats * nfatsects := Nat.mul_pos p.nfats_pos h.pos
  have hclusters := h.nclusters_eq hle (by omega)
  have hmul : c.nclusters * 2 ^ clustshift ≤ a - p.nfats * nfatsects := by
    rw [hclusters]
    exact Nat.div_mul_le_self _ _
  have hlt : c.nclusters ≤ a - p.nfats * nfatsects := by
    rw [hclusters]
    exact Nat.div_le_self _ _
  refine ⟨by rw [h.size]; omega, ?_⟩
  have hcheck := h.le
  rwa [Nat.mod_eq_of_lt (by omega)] at hcheck

end

theorem entries12 {n f : Nat} (h : n + 2 ≤ f * 2 ^ (p.sectshift + 1) % 2 ^ 32 / 3) :
    (n + 2) * 12 ≤ f * p.sectorsize * 8 := by
  have hpow : f * 2 ^ (p.sectshift + 1) = f * p.sectorsize * 2 := by
    rw [Nat.pow_succ, ← mul_assoc, Params.sectorsize]
  have hmod := Nat.mod_le (f * 2 ^ (p.sectshift + 1)) (2 ^ 32)
  omega

theorem entries {n f k : Nat} (hk : k ≤ 9) (h : n ≤ f * 2 ^ (p.sectshift - k) % 2 ^ 32) :
    n * 2 ^ k ≤ f * p.sectorsize := by
  have hge := p.sectshift_ge
  rw [Params.sectorsize, show p.sectshift = p.sectshift - k + k by omega, Nat.pow_add, ← Nat.mul_assoc]
  exact Nat.mul_le_mul_right _ (Nat.le_trans h (Nat.mod_le ..))

theorem entries16 {n f : Nat} (h : n + 2 ≤ f * 2 ^ (p.sectshift - 1) % 2 ^ 32) :
    (n + 2) * 16 ≤ f * p.sectorsize * 8 := by
  have := entries (by decide) h
  omega

theorem entries32 {n f : Nat} (h : n ≤ f * 2 ^ (p.sectshift - 2) % 2 ^ 32) : n * 32 ≤ f * p.sectorsize * 8 := by
  have := entries (by decide) h
  omega

theorem nrootdirsects_eq (p : Params) : nrootdirsects p = rootsects p (rootdirentries p) % 256 := rfl

theorem rootsects_pos (p : Params) : 1 ≤ rootsects p (rootdirentries p) := by
  have hss := sectorsize_ge p
  rw [rootsects, Nat.one_le_div_iff (by omega), rootdirentries]
  split <;> omega

theorem avail16_eq (h : rsvd16 p + nrootdirsects p ≤ p.nsectors) :
    avail16 p = p.nsectors - nrootdirsects p - rsvd16 p := by
  have := p.nsectors_lt
  rw [avail16, sub32_eq (a := p.nsectors) (by omega) (by omega), sub32_eq (by omega) (by omega)]

theorem two_pow_le {k : Nat} (hk : k ≤ 7) : 2 ^ k ≤ 128 := Nat.pow_le_pow_right (n := 2) (by decide) hk

theorem roomy_of_sectors {r f n k : Nat} (hr : r = rootsects p (rootdirentries p)) (hf : 1 ≤ f) (hn : 1 ≤ n)
    (hk : k ≤ 7) (hclusters : n = remaining p k (avail16 p) f)
    (hsum : rsvd16 p + p.nfats * f + r + n * 2 ^ k ≤ p.nsectors) : r ≤ 255 ∧ rsvd16 p + r + p.nfats < p.nsectors := by
  have hlt := p.nsectors_lt
  have hone : 1 ≤ 2 ^ k := Nat.one_le_two_pow
  have hpow : 2 ^ k ≤ 128 := two_pow_le hk
  have hnk : 1 ≤ n * 2 ^ k := Nat.mul_pos hn hone
  have hfats : p.nfats ≤ p.nfats * f := Nat.le_mul_of_pos_right _ hf
  refine ⟨Nat.le_of_not_lt fun hbig => ?_, by omega⟩
  have hroot : nrootdirsects p = r % 256 := by rw [hr, nrootdirsects_eq]
  have havail := avail16_eq (p := p) (by omega)
  rw [remaining, sub32_eq (by omega) (by omega)] at hclusters
  have hrest := Nat.lt_div_mul_add (a := avail16 p - p.nfats * f) hone
  rw [← hclusters] at hrest
  omega

theorem fits16_iff {out : Layout} (htype : p.fattype ≠ .fat32) (hroot : out.rootdirentries = rootdirentries p)
    (hsize : out.nfatsects = c.nfatsects) (hnclusters : out.nclusters = c.nclusters)
    (hrsvd : out.rsvdseccount = c.rsvdseccount) (hshift : out.clustshift ≤ 7)
    (h : Found ll p out.clustshift out.fattype c) : Fits p out ↔ Roomy ll p := by
  rw [Roomy, if_neg htype]
  obtain ⟨t, k, r, f, n, nr, e, bb⟩ := out
  dsimp only at hroot hsize hnclusters hrsvd hshift h
  subst hroot hsize hnclusters hrsvd
  have hrootpos := rootsects_pos p
  have hlt := p.nsectors_lt
  constructor
  · intro hfits
    have hsum := hfits.sectors
    cases h with
    | fat12 _ hne hrsvd hs =>
      rw [if_neg nofun, hrsvd] at hsum
      exact roomy_of_sectors rfl (hs.size ▸ hs.pos) (Nat.pos_of_ne_zero hne) hshift (hs.size ▸ hs.clusters) hsum
    | fat16 _ hrsvd hs =>
      rw [if_neg nofun, hrsvd] at hsum
      have hpos : 1 ≤ c.nclusters := Nat.le_trans (by decide) hs.ge
      exact roomy_of_sectors rfl (hs.size ▸ hs.pos) hpos hshift (hs.size ▸ hs.clusters) hsum
    | fat32 h32 => exact absurd h32 htype
    | empty h32 => exact absurd h32 htype
  · rintro ⟨hr, hroom⟩
    have hmod : nrootdirsects p = rootsects p (rootdirentries p) := by
      rw [nrootdirsects_eq, Nat.mod_eq_of_lt (by omega)]
    have havail := avail16_eq (p := p) (by omega)
    have hle : p.nfats ≤ avail16 p := by omega
    cases h with
    | fat12 _ hne hrsvd hs =>
      obtain ⟨hsum, hmax⟩ := hs.fits (nfatsect12_le p ll k hle) (by omega) (by decide)
      refine ⟨?_, ?_, ?_⟩
      · dsimp only
        rw [if_neg nofun, hrsvd]
        omega
      · exact entries12 (hs.size ▸ Nat.le_trans hmax (Nat.min_le_left _ _))
      · exact Nat.le_trans (Nat.le_add_right _ 2) (Nat.le_trans hmax (Nat.min_le_right _ _))
    | fat16 _ hrsvd hs =>
      obtain ⟨hsum, hmax⟩ := hs.fits (nfatsect16_le p ll k hle) (by omega) (by decide)
      refine ⟨?_, ?_, hs.ge, ?_⟩
      · dsimp only
        rw [if_neg nofun, hrsvd]
        omega
      · exact entries16 (hs.size ▸ Nat.le_trans hmax (Nat.min_le_left _ _))
      · exact Nat.le_trans (Nat.le_add_right _ 2) (Nat.le_trans hmax (Nat.min_le_right _ _))
    | fat32 h32 => exact absurd h32 htype
    | empty h32 => exact absurd h32 htype

theorem rsvd32_pos (p : Params) : 2 ≤ rsvd32 p ∧ rsvd32 p ≤ 32767 := by
  have := p.rsvdseccount_le
  rw [rsvd32]
  split
  · split <;> omega
  · decide

theorem denom32_le {k : Nat} (p : Params) (hk : k ≤ 7) : denom32 p k ≤ 131076 ∧ 1 ≤ denom32 p k := by
  have hn := p.nfats_pos
  have hn' := p.nfats_le
  have hpow : 2 ^ k ≤ 128 := two_pow_le hk
  have hmul : p.sectorsize * 2 ^ k ≤ 4096 * 128 := Nat.mul_le_mul (sectorsize_le p) hpow
  rw [denom32]
  omega

theorem quotient_of_pos {number denom : Nat} (hlt : number < 2 ^ 32) (hpos : 0 < quotient ll number denom) :
    quotient ll number denom = (number + denom - 1) / denom := by
  rw [quotient] at hpos ⊢
  split
  · rfl
  · rename_i hll
    rw [if_neg hll, Nat.div_pos_iff] at hpos
    rw [Nat.mod_eq_of_lt]
    omega

section

variable {k : Nat} (hroom : rsvd32 p + minclust32 ≤ p.nsectors) (hk : k ≤ 7)

include hroom hk

theorem avail32_eq : avail32 p k = p.nsectors - 2 ^ k - rsvd32 p := by
  have hlt := p.nsectors_lt
  have hone : 1 ≤ 2 ^ k := Nat.one_le_two_pow
  have hpow : 2 ^ k ≤ 128 := two_pow_le hk
  rw [minclust32] at hroom
  rw [avail32, sub32_eq (a := p.nsectors) (by omega) hlt, sub32_eq (by omega) (by omega)]

theorem number32_eq : avail32 p k + 3 * 2 ^ k = p.nsectors - rsvd32 p + 2 * 2 ^ k := by
  have hpow : 2 ^ k ≤ 128 := two_pow_le hk
  rw [avail32_eq hroom hk]
  rw [minclust32] at hroom
  omega

theorem nfatsect32_eq_zero_iff : nfatsect32 ll p k (avail32 p k) = 0 ↔ ¬ Size32 ll p k := by
  have hlt := p.nsectors_lt
  have hpow : 2 ^ k ≤ 128 := two_pow_le hk
  obtain ⟨hdenom, hpos⟩ := denom32_le p hk
  rw [nfatsect32_eq, number32_eq hroom hk, Size32, quotient]
  rw [minclust32] at hroom
  generalize 2 ^ k = m at *
  generalize denom32 p k = q at *
  cases ll with
  | true =>
    simp only [if_true, Nat.div_eq_zero_iff]
    omega
  | false =>
    simp only [Bool.false_eq_true, if_false, Nat.div_eq_zero_iff]
    omega

end

theorem not_fails32 (hlo : 2 ^ 32 + rsvd32 p ≤ p.nsectors + 2 ^ 18) (hhi : p.nsectors + 128 ≤ 2 ^ 32 + rsvd32 p) :
    ¬ Fails32 ll p 5 := by
  have hn := p.nfats_le
  have hge := p.sectshift_ge
  have hroom : rsvd32 p + minclust32 ≤ p.nsectors := by
    rw [minclust32]
    omega
  have hnumber := number32_eq hroom (show 5 ≤ 7 by decide)
  obtain ⟨hdenom, hdpos⟩ := denom32_le p (show 5 ≤ 7 by decide)
  rintro ⟨hpos, hfail⟩
  have hfats := nfatsect32_le p ll 5 (show p.nfats ≤ avail32 p 5 by omega)
  have hmod : (p.nsectors - rsvd32 p + 2 * 2 ^ 5) % 2 ^ 32 = p.nsectors - rsvd32 p + 64 := Nat.mod_eq_of_lt (by omega)
  rw [nfatsect32_eq, hnumber, hmod] at hpos hfail hfats
  have hquot := quotient_of_pos (by omega) hpos
  generalize quotient ll (p.nsectors - rsvd32 p + 64) (denom32 p 5) = f at *
  -- the FATs take `nfats * f` sectors, and each of them has `g` entries
  obtain ⟨g, hg⟩ : ∃ g, f * 2 ^ (p.sectshift - 2) = g := ⟨_, rfl⟩
  have hsize : p.sectorsize = 2 ^ (p.sectshift - 2) * 4 := by
    rw [Params.sectorsize, show (4 : Nat) = 2 ^ 2 from rfl, ← Nat.pow_add, Nat.sub_add_cancel (by omega)]
  have hmul : f * denom32 p 5 = p.nfats * f + 32 * g := by
    rw [denom32, hsize, ← hg, show 2 ^ (p.sectshift - 2) * 4 * 2 ^ 5 / 4 = 32 * 2 ^ (p.sectshift - 2) by omega,
      Nat.mul_add, Nat.mul_comm f, Nat.mul_left_comm]
  have hgf : 128 * f ≤ g := by
    have hpow : 128 ≤ 2 ^ (p.sectshift - 2) := Nat.pow_le_pow_right (n := 2) (i := 7) (by decide) (by omega)
    rw [← hg, Nat.mul_comm]
    exact Nat.mul_le_mul_left f hpow
  have hnf : p.nfats * f ≤ 4 * f := Nat.mul_le_mul_right f hn
  have hupper := Nat.div_mul_le_self (p.nsectors - rsvd32 p + 64 + denom32 p 5 - 1) (denom32 p 5)
  have hlower := Nat.lt_div_mul_add (a := p.nsectors - rsvd32 p + 64 + denom32 p 5 - 1) hdpos
  rw [← hquot, hmul] at hupper hlower
  rw [hg, remaining, sub32_eq hfats (by omega), Nat.mod_eq_of_lt (a := g) (by omega),
    Nat.mod_eq_of_lt (by omega), minclust32, maxclust32] at hfail
  omega

/-- The search ends at a cluster size for which the size of the FAT can be computed, if it can for the first. -/
theorem size32_of_search {k : Nat} (hroom : rsvd32 p + minclust32 ≤ p.nsectors) (hstart : startshift p ≤ k)
    (hk : k ≤ 7) (hgiven : p.clustshift ≠ 255 → k = startshift p)
    (hfails : ∀ j, startshift p ≤ j → j < k → Fails32 ll p j) (hsize : Size32 ll p (startshift p)) : Size32 ll p k := by
  refine Decidable.byContradiction fun hbad => ?_
  have hpow : 2 ^ k ≤ 128 := two_pow_le hk
  have hne : startshift p ≠ k := by
    rintro rfl
    exact hbad hsize
  -- the first cluster size tried was not this one, so the search was free to choose and started at 32 sectors
  have hauto : p.clustshift = 255 := Decidable.byContradiction fun hne' => hne (hgiven hne').symm
  have hfive : startshift p = 5 := by
    rw [minclust32] at hroom
    rw [startshift, clustersearchlimits, if_pos hauto]
    repeat rw [if_neg (by omega)]
  have hsix : 64 ≤ 2 ^ k := Nat.pow_le_pow_right (n := 2) (i := 6) (by decide) (by omega)
  obtain ⟨hdenom, -⟩ := denom32_le p hk
  have hround : (if ll then 0 else denom32 p k - 1) ≤ 131075 := by split <;> omega
  rw [Size32] at hbad
  exact absurd (hfails 5 (by omega) (by omega)) (not_fails32 (by omega) (by omega))

theorem fits32_iff {out : Layout} (htype : p.fattype = .fat32)
    (hsize : out.nfatsects = c.nfatsects) (hnclusters : out.nclusters = c.nclusters)
    (hrsvd : out.rsvdseccount = c.rsvdseccount) (hstart : startshift p ≤ out.clustshift) (hshift : out.clustshift ≤ 7)
    (hgiven : p.clustshift ≠ 255 → out.clustshift = startshift p)
    (hfails : ∀ k, startshift p ≤ k → k < out.clustshift → Fails32 ll p k)
    (h : Found ll p out.clustshift out.fattype c) : Fits p out ↔ Roomy ll p := by
  rw [Roomy, if_pos htype]
  obtain ⟨t, k, r, f, n, nr, e, bb⟩ := out
  dsimp only at hsize hnclusters hrsvd hstart hshift hgiven hfails h
  subst hsize hnclusters hrsvd
  have hrsvdpos := rsvd32_pos p
  have hlt := p.nsectors_lt
  have hone : 1 ≤ 2 ^ k := Nat.one_le_two_pow
  have hpow : 2 ^ k ≤ 128 := two_pow_le hshift
  cases h with
  | fat12 h32 => exact absurd htype h32
  | fat16 h32 => exact absurd htype h32
  | fat32 _ hrsvd hs =>
    constructor
    · intro hfits
      have hsum : c.rsvdseccount + p.nfats * c.nfatsects + 0 + c.nclusters * 2 ^ k ≤ p.nsectors := hfits.sectors
      have hmin : minclust32 ≤ c.nclusters * 2 ^ k := Nat.le_trans hfits.range.1 (Nat.le_mul_of_pos_right _ hone)
      have hroom : rsvd32 p + minclust32 ≤ p.nsectors := by omega
      refine ⟨hroom, Decidable.byContradiction fun hbad => ?_⟩
      have hzero := (nfatsect32_eq_zero_iff hroom (Nat.le_trans hstart hshift)).mpr hbad
      rcases Nat.eq_or_lt_of_le hstart with heq | hbefore
      · rw [heq] at hzero
        exact absurd hs.pos (by omega)
      · exact absurd (hfails _ .refl hbefore).1 (by omega)
    · rintro ⟨hroom, -⟩
      have havail := avail32_eq hroom hshift
      have hn := p.nfats_le
      rw [minclust32] at hroom
      obtain ⟨hsum, hmax⟩ := hs.fits (nfatsect32_le p ll k (by omega)) (by omega) (by decide)
      refine ⟨?_, ?_, hs.ge, ?_⟩
      · dsimp only
        rw [if_pos rfl, hrsvd]
        omega
      · have hentries := entries32 (hs.size ▸ Nat.le_trans hmax (Nat.min_le_left _ _))
        exact Nat.le_trans (Nat.mul_le_mul_right _ (Nat.le_succ _)) hentries
      · exact Nat.le_trans (Nat.le_add_right _ 3) (Nat.le_trans hmax (Nat.min_le_right _ _))
  | empty _ _ hzero hnone =>
    constructor
    · intro hfits
      have hmin : minclust32 ≤ c.nclusters := hfits.range.1
      rw [hnone, minclust32] at hmin
      omega
    · rintro ⟨hroom, hsize⟩
      have hbad := (nfatsect32_eq_zero_iff hroom hshift).mp hzero
      exact absurd (size32_of_search hroom hstart hshift hgiven hfails hsize) hbad

end

def small (nsectors : UInt32) : Params where
  nfats := 2
  fattype := .auto
  clustshift := 255
  backupboot := 0
  rootdirentries := 0
  rsvdseccount := 0
  nsectors := nsectors.toNat
  sectshift := 9
  nfats_pos := Nat.le_add_right 1 1
  nfats_le := Nat.le_add_right 2 2
  clustshift_le := .inr rfl
  rootdirentries_le := .inl rfl
  rsvdseccount_le := Nat.zero_le _
  backupboot_lt := Nat.two_pow_pos 16
  nsectors_lt := nsectors.toNat_lt
  sectshift_ge := Nat.le.refl
  sectshift_le := Nat.le_add_right 9 3

def volume32 (rsvdseccount : Fin 32768) : Params where
  nfats := 2
  fattype := .fat32
  clustshift := 0
  backupboot := 0
  rootdirentries := 0
  rsvdseccount := rsvdseccount
  nsectors := 70000
  sectshift := 9
  nfats_pos := Nat.le_add_right 1 1
  nfats_le := Nat.le_add_right 2 2
  clustshift_le := .inl (Nat.zero_le _)
  rootdirentries_le := .inl rfl
  rsvdseccount_le := Nat.le_of_lt_succ rsvdseccount.isLt
  backupboot_lt := Nat.two_pow_pos 16
  nsectors_lt := Nat.le_add_right 70001 4294897295
  sectshift_ge := Nat.le.refl
  sectshift_le := Nat.le_add_right 9 3

/-- The layout fits the volume, just for the parameters that leave room for one sector in each FAT, count the sectors of
the root directory in 8 bits, and do not make the size of a FAT32 FAT 0. -/
theorem fits_iff (ll : Bool) (p : Params) (out : Layout) (h : configfatfs ll p = some out) :
    Fits p out ↔ Roomy ll p := by
  obtain ⟨c, hsize, hnclusters, hrsvd, hroot, -, hfound, hstart, hshift, hgiven, hfails⟩ := configfatfs_cases h
  by_cases htype : p.fattype = .fat32
  · exact fits32_iff htype hsize hnclusters hrsvd hstart hshift hgiven (hfails htype) hfound
  · refine fits16_iff htype (hroot fun h32 => ?_) hsize hnclusters hrsvd hshift hfound
    rw [h32] at hfound
    cases hfound with
    | fat32 h => exact htype h
    | empty h => exact htype h

theorem fits_floppy : ∃ out, configfatfs true (small 2880) = some out ∧ Fits (small 2880) out := by
  refine ⟨_, rfl, (fits_iff true _ _ rfl).mpr ?_⟩
  rw [Roomy, if_neg nofun]
  decide

/-- On 34 sectors, one is left for two FATs. The number of clusters wraps to 2³² - 1, and 2 more is 1, which the FAT has
entries for. -/
theorem nclusters_wraps : ∃ out, configfatfs true (small 34) = some out ∧ out.nclusters = 2 ^ 32 - 1 ∧
    ¬ Fits (small 34) out := by
  refine ⟨_, rfl, rfl, fun h => ?_⟩
  exact absurd h.sectors (by decide)

end NuttxApps.Mkfatfs
