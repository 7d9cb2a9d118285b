import NuttxApps.Nxboot.Run
import Mathlib.Data.Prod.Lex

/-!
# The primary slot is never lost

On a board whose write blocks hold the first 16 bytes of the header and whose primary slot is no larger than the other
two, one uninterrupted `nxboot_perform_update` ends with a valid primary image, in every state of every run from a valid
factory image (`ends_valid`). The invariant (`Safe`): the primary image is valid, or its slot is being overwritten from
a valid image that the next boot selects again in the same role (`Resumes`, `Restores`). `compare_versions` is asked
only about an update with the CRC of the primary image: `prevents_downgrade_iff` says when the order of the versions
decides.
-/

namespace NuttxApps.Nxboot

open Bytes Replay

def Resumes {B : Board} (f : Flash B) : Prop :=
  (f.hdr f.update).magic = headerMagic ∧ validateImage f f.update = true ∧
    Fits B f.update .primary (f.hdr f.update).length

structure Restores {B : Board} (f : Flash B) : Prop where
  one : ¬ (isInternalMagic (f.hdr .secondary).magic = true ∧ isInternalMagic (f.hdr .tertiary).magic = true)
  internal : isInternalMagic (f.hdr f.recovery).magic = true
  valid : validateImage f f.recovery = true
  fits : Fits B f.recovery .primary (f.hdr f.recovery).length
  noUpdate : ¬ ((f.hdr f.update).magic = headerMagic ∧ validateImage f f.update = true)

structure Safe {B : Board} (f : Flash B) : Prop where
  /-- an internal image points to a slot, which has its CRC where it is internal -/
  pointer : isInternalMagic (f.hdr .primary).magic = true →
    ∃ q, q ≠ .primary ∧ recoveryPointer (f.hdr .primary).magic = q.num ∧
      (isInternalMagic (f.hdr q).magic = true → (f.hdr q).crc = (f.hdr .primary).crc)
  fits : isInternalMagic (f.hdr .primary).magic = true → (f.hdr .primary).length ≤ (B.geom .primary).size
  identifier : (f.hdr .primary).identifier = B.platformIdentifier
  phase : validateImage f .primary = true ∨ Resumes f ∨ Restores f

section

variable {B : Board} {f : Flash B}

theorem Resumes.next (h : Resumes f) (hp : validateImage f .primary = false) : (nxbootGetState f).nextBoot = .update :=
  (nextBoot_update_iff f).mpr ⟨h.1, h.2.1, .inr (.inr hp)⟩

theorem Restores.next (h : Restores f) (hp : validateImage f .primary = false) :
    (nxbootGetState f).nextBoot = .revert :=
  (nextBoot_revert_iff f).mpr
    ⟨fun hu => h.noUpdate ⟨((nextBoot_update_iff f).mp hu).1, ((nextBoot_update_iff f).mp hu).2.1⟩,
      h.internal, h.valid, .inr hp⟩

theorem update_over_primary
    (hone : ¬ (isInternalMagic (f.hdr .secondary).magic = true ∧ isInternalMagic (f.hdr .tertiary).magic = true))
    (a : List UInt8) (n : Nat) : (f.over .primary a n).update = f.update :=
  update_congr (congrArg ImgHeader.magic (f.hdr_over_of_ne (by decide) a n))
    (congrArg ImgHeader.magic (f.hdr_over_of_ne (by decide) a n)) hone

theorem Resumes.over_primary (h : Resumes f) (a : List UInt8) (n : Nat) : Resumes (f.over .primary a n) := by
  have hu := update_over_primary (f := f) (fun hboth => ?_) a n
  · rw [Resumes, hu, Flash.hdr_over_of_ne (update_ne_primary f), validateImage_over_of_ne (update_ne_primary f)]
    exact h
  · have := ne_headerMagic_of_isInternalMagic (m := (f.hdr f.update).magic)
      (by rcases update_recovery f with ⟨hu, -⟩ | ⟨hu, -⟩ <;> rw [hu]; exacts [hboth.1, hboth.2])
    exact this h.1

theorem Restores.over_primary (h : Restores f) (a : List UInt8) (n : Nat) : Restores (f.over .primary a n) := by
  have hu := update_over_primary h.one a n
  have hr : (f.over .primary a n).recovery = f.recovery := by rw [Flash.recovery, hu, Flash.recovery]
  have hs : ∀ t, t ≠ .primary → (f.over .primary a n).hdr t = f.hdr t := fun t ht => f.hdr_over_of_ne ht a n
  refine ⟨?_, ?_, ?_, ?_, ?_⟩
  · rw [hs _ (by decide), hs _ (by decide)]
    exact h.one
  · rw [hr, hs _ (recovery_ne_primary f)]
    exact h.internal
  · rw [hr, validateImage_over_of_ne (recovery_ne_primary f)]
    exact h.valid
  · rw [hr, hs _ (recovery_ne_primary f)]
    exact h.fits
  · rw [hu, hs _ (update_ne_primary f), validateImage_over_of_ne (update_ne_primary f)]
    exact h.noUpdate

theorem Safe.revert (h : Safe f) (hnext : (nxbootGetState f).nextBoot = .revert)
    (hfit : Fits B f.recovery .primary (f.hdr f.recovery).length) : Restores f := by
  obtain ⟨hnot, hint, hval, hwhy⟩ := (nextBoot_revert_iff f).mp hnext
  by_cases hp : validateImage f .primary = false
  · rcases h.phase with hv | hr | hr
    · rw [hp] at hv
      cases hv
    · exact absurd (hr.next hp) hnot
    · exact hr
  obtain ⟨hpint, hconf⟩ := hwhy.resolve_right hp
  obtain ⟨q, hq, hptr, hqcrc⟩ := h.pointer hpint
  -- the image is not confirmed, so the slot it points to is not internal
  have hcrc : (f.hdr .primary).crc ≠ (f.hdr q).crc := by
    rw [confirmed_eq f hpint hq hptr] at hconf
    simpa using hconf
  have hqint : ¬ isInternalMagic (f.hdr q).magic = true := fun hi => hcrc (hqcrc hi).symm
  have hqu : q = f.update := (eq_update_or_recovery f hq).resolve_right fun hqr => hqint (hqr ▸ hint)
  refine ⟨fun hboth => ?_, hint, hval, hfit, fun hu => hnot ?_⟩
  · cases q with
    | primary => exact hq rfl
    | secondary => exact hqint hboth.1
    | tertiary => exact hqint hboth.2
  · exact (nextBoot_update_iff f).mpr ⟨hu.1, hu.2, .inl (hqu ▸ hcrc)⟩

variable (h : Safe f) (hval : validateImage f .primary = true)

include h hval

/-- A change of another slot keeps a valid primary image safe, unless it has the internal magic and another CRC then. -/
theorem Safe.of_part {s : Slot} (hs : s ≠ .primary) {f' : Flash B} (hpart : ∀ t, t ≠ s → f'.part t = f.part t)
    (hcrc : isInternalMagic (f.hdr .primary).magic = true → isInternalMagic (f'.hdr s).magic = true →
      (f'.hdr s).crc = (f.hdr .primary).crc) : Safe f' ∧ validateImage f' .primary = true := by
  have hhdr : ∀ t, t ≠ s → f'.hdr t = f.hdr t := fun t ht => by rw [Flash.hdr, hpart t ht, Flash.hdr]
  have hval' : validateImage f' .primary = true := by
    rw [validateImage_eq, hpart _ hs.symm, ← validateImage_eq]
    exact hval
  refine ⟨⟨fun hi => ?_, ?_, ?_, .inl hval'⟩, hval'⟩
  · rw [hhdr _ hs.symm] at hi ⊢
    obtain ⟨q, hq, hptr, hq'⟩ := h.pointer hi
    refine ⟨q, hq, hptr, ?_⟩
    by_cases hqs : q = s
    · rw [hqs]
      exact hcrc hi
    · rwa [hhdr _ hqs]
  · rw [hhdr _ hs.symm]
    exact h.fits
  · rw [hhdr _ hs.symm]
    exact h.identifier

theorem Safe.erase {s : Slot} (hs : s ≠ .primary) : Safe (f.erase s) ∧ validateImage (f.erase s) .primary = true := by
  refine h.of_part hval hs (fun t ht => f.part_write_of_ne ht _ _) fun _ hi => ?_
  rw [(magic_erase f s).2] at hi
  cases hi

theorem Safe.upload (img : Image) (n : Nat) :
    Safe (f.over f.update img.bytes n) ∧ validateImage (f.over f.update img.bytes n) .primary = true := by
  rcases Nat.eq_zero_or_pos n with rfl | hn
  · rw [Flash.over_zero]
    exact ⟨h, hval⟩
  · refine h.of_part hval (update_ne_primary f) (fun t ht => f.part_over_of_ne _ ht) fun _ hi => ?_
    rw [magic_upload f _ img hn] at hi
    cases hi

end

/-- The write blocks hold the header up to the image size, and the primary slot
is no larger than the other two. -/
structure Board.Sound (B : Board) : Prop where
  block : ∀ s, 16 ≤ (B.geom s).blocksize
  size : ∀ s, (B.geom .primary).size ≤ (B.geom s).size

section

variable {B : Board} (hB : B.Sound) {f : Flash B}
include hB

theorem Board.Sound.copySize_le {src : Slot} {n : Int} (h : Fits B src .primary n) :
    copySize B src .primary n ≤ reach B src .primary := by
  have := hB.size src
  have hr : reach B src .primary = (B.geom .primary).size := Nat.min_eq_right this
  have := h.1
  have := h.2
  simp only [copySize]
  omega

theorem Board.Sound.valid_copy {src : Slot} {magic : Nat} (hid : (f.hdr .primary).identifier = B.platformIdentifier)
    (hval : validateImage f src = true) (hmagic : magic = headerMagic ∨ isInternalMagic magic = true)
    (hm : magic < 2 ^ 32) (hfit : Fits B src .primary (f.hdr src).length) :
    validateImage (f.over .primary (patched f src magic) (copySize B src .primary (f.hdr src).length))
      .primary = true := by
  have hblk := hB.block .primary
  have hle := blocksize_le_copySize B src .primary (f.hdr src).length
  refine validateImage_over (hB.copySize_le hfit) hval hid hmagic hm (by omega) ?_ (hB.size src)
  simp only [copySize]
  omega

variable (h : Safe f)

include h

omit hB in
theorem Safe.over_recovery (hnext : (nxbootGetState f).nextBoot = .revert)
    (hfit : Fits B f.recovery .primary (f.hdr f.recovery).length) {n : Nat}
    (hn : (B.geom .primary).blocksize ≤ n) (hn' : n ≤ reach B f.recovery .primary) :
    Safe (f.over .primary (patched f f.recovery headerMagic) n) := by
  have hR := h.revert hnext hfit
  have hmagic := magic_copied (f := f) hn' hn (show headerMagic < 2 ^ 32 by decide)
  have hrid : (f.hdr f.recovery).identifier = B.platformIdentifier := by
    have := hR.valid
    rw [validateImage_eq] at this
    exact (validImage_iff.mp this).2.1
  refine ⟨fun hi => ?_, fun hi => ?_, ?_, ?_⟩
  · rw [hmagic] at hi
    cases hi
  · rw [hmagic] at hi
    cases hi
  · rw [identifier_over hn' (h.identifier.trans hrid.symm), hrid]
  · exact .inr (.inr (hR.over_primary _ _))

omit hB in
theorem Safe.over_saved (hcreates : f.creates = true) {n : Nat}
    (hn : (B.geom f.recovery).blocksize ≤ n) (hn' : n ≤ reach B .primary f.recovery) :
    Safe (f.over f.recovery (patched f .primary f.createMagic) n) ∧
      validateImage (f.over f.recovery (patched f .primary f.createMagic) n) .primary = true := by
  have hval : validateImage f .primary = true := by
    simp only [Flash.creates, Bool.and_eq_true] at hcreates
    exact hcreates.2
  refine h.of_part hval (recovery_ne_primary f) (fun t ht => f.part_over_of_ne _ ht) fun hi hm => ?_
  -- an internal image is saved with the other magic
  have hc : f.createMagic = headerMagic := if_pos hi
  rw [magic_copied hn' hn (by rw [hc]; decide), hc] at hm
  cases hm

theorem Safe.over_confirmed (hval : validateImage f .primary = true) {n : Nat}
    (hn : (B.geom f.update).blocksize ≤ n) (hn' : n ≤ reach B .primary f.update) :
    Safe (f.over f.update (patched f .primary (f.hdr .primary).magic) n) ∧
      validateImage (f.over f.update (patched f .primary (f.hdr .primary).magic) n) .primary = true := by
  have hblk := hB.block f.update
  exact h.of_part hval (update_ne_primary f) (fun t ht => f.part_over_of_ne _ ht)
    fun _ _ => crc_congr ((agree_over_src hn').mono .refl (by omega))

theorem Safe.resumes (hnext : (nxbootGetState f).nextBoot = .update)
    (hfit : Fits B f.update .primary (f.hdr f.update).length) {c : List FlashOp} {f₁ : Flash B}
    (h₁ : Created f c f₁) : Resumes f₁ := by
  obtain ⟨hmagic, hval, -⟩ := (nextBoot_update_iff f).mp hnext
  have hkeep : f₁.update = f.update → Resumes f₁ := fun hu => by
    rw [Resumes, hu, h₁.hdr_update, h₁.validateImage_update]
    exact ⟨hmagic, hval, hfit⟩
  cases h₁ with
  | skip => exact hkeep rfl
  | @copy c n hcreates hfit' hn hn' hc hw hval' =>
    have hblk := hB.block f.recovery
    have hlt : f.createMagic < 2 ^ 32 := by
      rw [Flash.createMagic]
      split <;> decide
    have hnew := magic_over (f := f) hn' (by omega) hlt
    have hold := Created.hdr_update (Created.copy hcreates hfit' hn hn' hc hw hval')
    rcases update_recovery f with ⟨hu, hr⟩ | ⟨hu, hr⟩
    · by_cases hi : isInternalMagic (f.hdr .primary).magic = true
      · have hc : f.createMagic = headerMagic := if_pos hi
        rw [hc] at hnew hval'
        have hu' : (f.over f.recovery (patched f .primary f.createMagic) n).update = f.recovery := by
          rw [hc, hr]
          rw [hr] at hnew
          exact update_eq_tertiary _ hnew
        rw [Resumes, hu', hc, length_over hn' (by omega)]
        refine ⟨hnew, hval', h.fits hi, ?_⟩
        rw [copyBlock, Nat.max_comm, reach, Nat.min_comm]
        exact hfit'.2
      · have hc : f.createMagic = headerMagicInt := if_neg hi
        refine hkeep (Eq.trans (update_eq_secondary _ ?_ ?_) hu.symm)
        · rw [hr] at hnew
          rw [hr, hnew, hc]
          decide
        · rw [hu] at hold hmagic
          rw [hold, hmagic]
          decide
    · refine hkeep (Eq.trans (update_eq_tertiary _ ?_) hu.symm)
      rw [hu] at hold hmagic
      rw [hold, hmagic]

omit hB in
theorem Safe.created {c : List FlashOp} {f₁ : Flash B} (h₁ : Created f c f₁) : Safe f₁ := by
  cases h₁ with
  | skip => exact h
  | copy hcreates _ hn hn' _ _ _ => exact (h.over_saved hcreates hn hn').1

theorem Safe.over_update (hnext : (nxbootGetState f).nextBoot = .update)
    (hfit : Fits B f.update .primary (f.hdr f.update).length) {c : List FlashOp} {f₁ : Flash B}
    (h₁ : Created f c f₁) {n : Nat} (hn : (B.geom .primary).blocksize ≤ n) (hn' : n ≤ reach B f.update .primary) :
    Safe (f₁.over .primary (patched f₁ f.update f.installMagic) n) := by
  obtain ⟨hmagic, hval, -⟩ := (nextBoot_update_iff f).mp hnext
  have hblk := hB.block .primary
  have hnew := magic_over (f := f₁) hn' (by omega) (or_lt f.update)
  have hid : (f₁.hdr f.update).identifier = B.platformIdentifier := by
    rw [h₁.hdr_update]
    rw [validateImage_eq] at hval
    exact (validImage_iff.mp hval).2.1
  refine ⟨fun _ => ⟨f.update, update_ne_primary f, ?_, ?_⟩, fun _ => ?_, ?_, .inr (.inl ?_)⟩
  · rw [Flash.installMagic, hnew, recoveryPointer_or]
  · rw [Flash.hdr_over_of_ne (update_ne_primary f), h₁.hdr_update, hmagic]
    intro hi
    cases hi
  · rw [length_over hn' (by omega), h₁.hdr_update]
    exact hfit.1
  · rw [identifier_over hn' ((h.created h₁).identifier.trans hid.symm), hid]
  · exact (h.resumes hB hnext hfit h₁).over_primary _ _

theorem Safe.performs {check d : Bool} {ops : List FlashOp} {f' : Flash B}
    (hp : Performs f check d ops f') : Safe f' ∧ (d = true → validateImage f' .primary = true) := by
  cases hp with
  | idle hd =>
    refine ⟨h, fun hd' => ?_⟩
    by_contra hval
    rw [Bool.not_eq_true] at hval
    -- what repairs the primary slot is due, and fits
    rcases h.phase with hv | hr | hr
    · rw [hval] at hv
      cases hv
    · have hnext := hr.next hval
      rw [hnext, hval] at hd
      simpa [hr.2.2] using hd hd'
    · have hnext := hr.next hval
      rw [hnext, hval] at hd
      simpa [hr.fits] using hd hd'
  | revert hnext _ hfit hn hn' hd _ _ =>
    refine ⟨h.over_recovery hnext hfit hn hn', fun hd' => ?_⟩
    rw [hd hd' (hB.copySize_le hfit)]
    exact hB.valid_copy h.identifier ((nextBoot_revert_iff f).mp hnext).2.2.1 (.inl rfl) (by decide) hfit
  | create _ _ hcreates _ hn hn' _ _ =>
    obtain ⟨hs, hv⟩ := h.over_saved hcreates hn hn'
    exact ⟨hs, fun _ => hv⟩
  | install hnext _ h₁ hfit hn hn' hd _ _ =>
    refine ⟨h.over_update hB hnext hfit h₁ hn hn', fun hd' => ?_⟩
    have := hd hd'
    have := hB.copySize_le hfit
    omega
  | erase hnext _ h₁ hfit hn' _ _ =>
    have hval := ((nextBoot_update_iff f).mp hnext).2.1
    rw [← h₁.validateImage_update] at hval
    rw [← h₁.hdr_update]
    have hvalid := hB.valid_copy (h.created h₁).identifier hval (.inr (isInternalMagic_or f.update))
      (or_lt f.update) (by rw [h₁.hdr_update]; exact hfit)
    have hsafe := h.over_update hB hnext hfit h₁ (blocksize_le_copySize B f.update .primary (f.hdr f.update).length) hn'
    rw [← h₁.hdr_update] at hsafe
    obtain ⟨hs, hv⟩ := hsafe.erase hvalid (update_ne_primary f)
    exact ⟨hs, fun _ => hv⟩

end

section

variable {B : Board}

/-- Uploads and confirmations happen in the running application only. -/
def Allowed (s : Sys B) : Event → Prop
  | .upload _ _ => s.on = true
  | .confirm _ => s.on = true
  | .perform _ _ => True

instance (s : Sys B) : (e : Event) → Decidable (Allowed s e)
  | .upload _ _ => inferInstanceAs (Decidable (s.on = true))
  | .confirm _ => inferInstanceAs (Decidable (s.on = true))
  | .perform _ _ => .isTrue trivial

/-- One uninterrupted `nxboot_perform_update(false)` ends with a valid primary image. -/
def EndsValid (s : Sys B) : Prop :=
  validateImage (replay FlashOp.apply s.flash (nxbootPerformUpdate s.flash false).2) .primary = true

instance (s : Sys B) : Decidable (EndsValid s) := inferInstanceAs (Decidable (_ = true))

def SafeSys (s : Sys B) : Prop := Safe s.flash ∧ (s.on = true → validateImage s.flash .primary = true)

theorem SafeSys.step (hB : B.Sound) {s : Sys B} {e : Event} (h : SafeSys s) (he : Allowed s e) :
    SafeSys (step s e) := by
  cases e with
  | upload img n =>
    obtain ⟨hs, hv⟩ := h.1.upload (h.2 he) img n
    simp only [SafeSys, Nxboot.step, nxbootOpenUpdatePartition_eq]
    exact ⟨hs, fun _ => hv⟩
  | confirm cut =>
    rcases confirms_upTo s.flash cut with hnil | ⟨-, n, hn, hn', hre⟩
    · simp only [SafeSys, Nxboot.step, hnil, replay_nil]
      exact ⟨h.1, fun _ => h.2 he⟩
    · obtain ⟨hs, hv⟩ := h.1.over_confirmed hB (h.2 he) hn hn'
      simp only [SafeSys, Nxboot.step, hre]
      exact ⟨hs, fun _ => hv⟩
  | perform check cut => exact h.1.performs hB (performs_upTo s.flash check cut)

/-- **The primary slot is never lost.** In every run from a valid factory image, one uninterrupted
`nxboot_perform_update` ends with a valid primary image. -/
theorem ends_valid (hB : B.Sound) {f : Flash B} (hmagic : (getImageHeader f .primary).magic = headerMagic)
    (hval : validateImage f .primary = true) {es : List Event} (hes : Guarded step Allowed (Sys.factory f) es) :
    Along step EndsValid (Sys.factory f) es := by
  rw [getImageHeader_eq] at hmagic
  have hext : ¬ isInternalMagic (f.hdr .primary).magic = true := by
    rw [hmagic]
    decide
  have hid : (f.hdr .primary).identifier = B.platformIdentifier := by
    rw [validateImage_eq] at hval
    exact (validImage_iff.mp hval).2.1
  have h₀ : SafeSys (Sys.factory f) :=
    ⟨⟨fun h => absurd h hext, fun h => absurd h hext, hid, .inl hval⟩, fun _ => hval⟩
  exact (along_of_guarded (fun s e h he => h.step hB he) h₀ hes).mono fun s h =>
    (h.1.performs hB (performs_upTo s.flash false none)).2 rfl

end

def sectors (n k : Nat) (h : 0 < n ∧ n < 4) (hk : 2 ≤ k ∧ k ≤ 7) : Geometry where
  blocksize := 2 ^ k
  erasesize := 128
  neraseblocks := n
  blocksize_pow := ⟨k, hk.1, rfl⟩
  blocksize_dvd := (Nat.pow_dvd_pow 2 hk.2 : 2 ^ k ∣ 2 ^ 7)
  header_le := Nat.le_refl _
  neraseblocks_pos := h.1
  size_lt := by omega

theorem sectors_two : 0 < 2 ∧ 2 < 4 := by decide

theorem blocks_four : 2 ≤ 4 ∧ 4 ≤ 7 := by decide

def imageA : Image := nximage 136 0 ⟨1, 0, 0, []⟩ [1, 2, 3, 4]
def imageB : Image := nximage 136 0 ⟨1, 1, 0, []⟩ [5, 6, 7, 8]

/-- `imageB` is installed, the first 12 bytes of `imageA` are uploaded again, the confirmation is cut after a write, and
the revert after two. -/
def cutRevert : List Event :=
  [.perform false none, .upload imageB 140, .perform false none, .upload imageA 12, .confirm (some 1),
    .perform false (some 2)]

theorem ends_valid_cutRevert :
    Along step EndsValid
      (Sys.factory (Flash.factory (Board.uniform (sectors 2 4 (by decide) (by decide)) false) imageA))
      cutRevert :=
  ends_valid ⟨fun _ => (by decide : 16 ≤ 2 ^ 4), fun _ => .refl⟩ (by decide +kernel) (by decide +kernel)
    (by decide +kernel)

/-- With blocks of 8 bytes the cut confirmation leaves the secondary slot with the internal magic and the CRC of
`imageA`, but not its bytes. The cut revert leaves that CRC in the primary slot as well, so the secondary slot becomes
the recovery, which does not validate. -/
theorem small_block_lost :
    let s := Sys.factory (Flash.factory (Board.uniform (sectors 2 3 (by decide) (by decide)) false) imageA)
    (getImageHeader s.flash .primary).magic = headerMagic ∧ validateImage s.flash .primary = true ∧
      Guarded step Allowed s cutRevert ∧ ¬ EndsValid (replay step s cutRevert) := by
  decide +kernel

def largePrimary : Board where
  geom s := if s = .primary then sectors 3 7 (by decide) (by decide) else sectors 2 7 (by decide) (by decide)
  erased := 0xff
  platformIdentifier := 0
  preventDowngrade := false
  crc32 := .ieee

/-- An image of 264 bytes with the CRC `0xffffffff`, which `calculate_crc` returns
where a read fails. -/
def imageF : Image := nximage 136 0 ⟨1, 1, 0, []⟩ (List.replicate 124 0 ++ [198, 248, 98, 59])

set_option maxRecDepth 2000 in
/-- The part of it that fits the update slot validates there, but cannot be copied
as a whole: every boot overwrites the primary slot and fails. -/
theorem large_primary_lost :
    let s := Sys.factory (Flash.factory largePrimary imageA)
    let es := [.perform false none, .upload imageF 256, .perform false none]
    validateImage s.flash .primary = true ∧ Guarded step Allowed s es ∧ ¬ EndsValid (replay step s es) := by
  decide +kernel

variable {B : Board}

def ImgVersion.triple (v : ImgVersion) : ℕ ×ₗ ℕ ×ₗ ℕ := toLex (v.major, toLex (v.minor, v.patch))

theorem ImgVersion.triple_lt_iff {v w : ImgVersion} :
    v.triple < w.triple ↔
      v.major < w.major ∨ v.major = w.major ∧ (v.minor < w.minor ∨ v.minor = w.minor ∧ v.patch < w.patch) := by
  simp only [triple, Prod.Lex.toLex_lt_toLex]

/-- A valid primary image is not replaced by an older version, and a newer version
replaces it. -/
structure PreventsDowngrade (f : Flash B) (state : NxbootState) (update : Slot) (ph uh rh : ImgHeader) : Prop where
  older : validateImage f .primary = true → uh.imgVersion.triple < ph.imgVersion.triple →
    getUpdateType f state update ph uh rh ≠ .update
  newer : uh.magic = headerMagic → validateImage f update = true → ph.imgVersion.triple < uh.imgVersion.triple →
    getUpdateType f state update ph uh rh = .update

theorem compareVersions_iff (hB : B.preventDowngrade = true) {v w : ImgVersion} :
    compareVersions B v w = true ↔ w.major < v.major ∨ w.minor < v.minor ∨ w.patch < v.patch := by
  simp [compareVersions, hB, or_assoc]

/-- **When downgrades are prevented.** The order of the versions decides, but for a valid update of a valid image that
is older and has another CRC, or is newer, has the same CRC and a smaller minor or patch number. -/
theorem prevents_downgrade_iff (hB : B.preventDowngrade = true) (f : Flash B) (state : NxbootState) (update : Slot)
    (ph uh rh : ImgHeader) :
    PreventsDowngrade f state update ph uh rh ↔
      (uh.magic = headerMagic → validateImage f update = true → validateImage f .primary = true →
        (uh.imgVersion.triple < ph.imgVersion.triple → ph.crc = uh.crc) ∧
        (ph.imgVersion.triple < uh.imgVersion.triple → ph.crc = uh.crc →
          ph.imgVersion.minor ≤ uh.imgVersion.minor ∧ ph.imgVersion.patch ≤ uh.imgVersion.patch)) := by
  constructor
  · intro h hmagic hval hprim
    refine ⟨fun hlt => ?_, fun hlt hcrc => ?_⟩
    · have := h.older hprim hlt
      rw [Ne, getUpdateType_update_iff] at this
      by_contra hcrc
      exact this ⟨hmagic, hval, .inl hcrc⟩
    · -- the CRC is the same, so no component of the primary version is greater
      have := h.newer hmagic hval hlt
      rw [getUpdateType_update_iff, hcrc, hprim, ← Bool.not_eq_true, compareVersions_iff hB] at this
      have hnot := (this.2.2.resolve_left fun h => h rfl).resolve_right (by decide)
      omega
  · intro h
    refine ⟨fun hprim hlt hup => ?_, fun hmagic hval hlt => ?_⟩
    · obtain ⟨hmagic, hval, hwhy⟩ := (getUpdateType_update_iff f).mp hup
      have hcmp : compareVersions B ph.imgVersion uh.imgVersion = true := by
        rw [compareVersions_iff hB]
        rw [ImgVersion.triple_lt_iff] at hlt
        omega
      rw [hcmp, hprim] at hwhy
      simp only [Bool.true_eq_false, or_false] at hwhy
      exact hwhy ((h hmagic hval hprim).1 hlt)
    · rw [getUpdateType_update_iff]
      refine ⟨hmagic, hval, ?_⟩
      by_contra hnot
      simp only [not_or, not_not, Bool.not_eq_false] at hnot
      obtain ⟨hcrc, hcmp, hprim⟩ := hnot
      have hle := (h hmagic hval hprim).2 hlt hcrc
      rw [compareVersions_iff hB] at hcmp
      rw [ImgVersion.triple_lt_iff] at hlt
      omega

def offered (primary secondary : Image) : Flash (Board.uniform (sectors 2 4 sectors_two blocks_four) true) :=
  Flash.load _ fun
    | .primary => primary.bytes
    | .secondary => secondary.bytes
    | .tertiary => []

theorem prevents_downgrade_newer :
    let f := offered imageA imageB
    PreventsDowngrade f (nxbootGetState f) .secondary (getImageHeader f .primary) (getImageHeader f .secondary)
      (getImageHeader f .tertiary) := by
  refine (prevents_downgrade_iff rfl _ _ _ _ _ _).mpr ?_
  decide +kernel

theorem downgraded :
    let f := offered imageB imageA
    ¬ PreventsDowngrade f (nxbootGetState f) .secondary (getImageHeader f .primary) (getImageHeader f .secondary)
      (getImageHeader f .tertiary) := by
  intro f h
  refine h.older (by decide +kernel) ?_ (by decide +kernel)
  decide +kernel

/-- Between headers with one CRC, the update from 1.5.0 to 2.0.0 is not made. -/
theorem upgrade_refused :
    let f := offered imageA imageB
    let ph := { getImageHeader f .primary with imgVersion := ⟨1, 5, 0, []⟩ }
    let uh := { getImageHeader f .secondary with imgVersion := ⟨2, 0, 0, []⟩, crc := ph.crc }
    ¬ PreventsDowngrade f (nxbootGetState f) .secondary ph uh (getImageHeader f .tertiary) := by
  intro f ph uh h
  refine absurd (h.newer (by decide +kernel) (by decide +kernel) ?_) (by decide +kernel)
  decide +kernel

end NuttxApps.Nxboot
