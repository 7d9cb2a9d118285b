import NuttxApps.Nxboot.Safe

/-!
# Only `nxboot_confirm` confirms an image

`nxboot_get_state` takes the installed image for confirmed where the slot its magic points to has its CRC. In every run
whose steps meet `KeepsUnconfirmed` this is the only way (`stays_unconfirmed`); the others are `confirmed_before_erase`,
`confirmed_by_upload` and `confirmed_by_erase`.
-/

namespace NuttxApps.Nxboot

open Bytes Replay

variable {B : Board}

/-- The next boot asks for a revert. Where the whole recovery can be copied, the primary slot then holds it, with
`NXBOOT_HEADER_MAGIC`. -/
structure Reverts (f : Flash B) : Prop where
  next : (nxbootGetState f).nextBoot = .revert
  copied :
    let recovery := (nxbootGetState f).recovery
    let length := (getImageHeader f recovery).length
    let f' := replay FlashOp.apply f (nxbootPerformUpdate f false).2
    copySize B recovery .primary length ≤ reach B recovery .primary →
      (getImageHeader f' .primary).magic = headerMagic ∧
        Agree (f'.part .primary) (f.part recovery) 4 length.toNat

def Installed (s : Sys B) : Prop :=
  isInternalMagic (getImageHeader s.flash .primary).magic = true ∧ validateImage s.flash .primary = true ∧
    s.confirmCalled = false

instance (s : Sys B) : Decidable (Installed s) := inferInstanceAs (Decidable (_ ∧ _ ∧ _))

def Unconfirmed (s : Sys B) : Prop :=
  Installed s → (nxbootGetState s.flash).primaryConfirmed = false ∧
    ((∀ t, s.uploaded t = false) → (nxbootGetState s.flash).recoveryValid = true → Reverts s.flash)

def erasedWord (B : Board) : Nat := le (List.replicate 4 B.erased)

/-- An upload does not put the CRC of the installed image into the slot it points to. An update that is cut (or fails)
in front of the erase leaves no valid image, and one that is not cut has another CRC than erased bytes. -/
def KeepsUnconfirmed (s : Sys B) : Event → Prop
  | .upload img n =>
    let update := nxbootOpenUpdatePartition s.flash
    Installed s → recoveryPointer (getImageHeader s.flash .primary).magic = update.num →
      (getImageHeader (s.flash.over update img.bytes n) update).crc ≠ (getImageHeader s.flash .primary).crc
  | .confirm _ => True
  | .perform checkOnly cut =>
    let ops := upTo cut (nxbootPerformUpdate s.flash checkOnly).2
    let f' := replay FlashOp.apply s.flash ops
    (nxbootGetState s.flash).nextBoot = .update → ops.any (·.writes .primary) = true →
      (ops.any FlashOp.isErase = false → validateImage f' .primary = false) ∧
        (ops.any FlashOp.isErase = true → (getImageHeader f' .primary).crc ≠ erasedWord B)

instance (s : Sys B) : (e : Event) → Decidable (KeepsUnconfirmed s e)
  | .upload _ _ => inferInstanceAs (Decidable (_ → _ → _ ≠ _))
  | .confirm _ => .isTrue trivial
  | .perform _ _ => inferInstanceAs (Decidable (_ → _ → (_ → _) ∧ (_ → _)))

/-- An installed image points to a slot with another CRC, which has no magic as
long as nothing is uploaded. -/
def PointsAway (s : Sys B) : Prop :=
  Installed s → ∃ q, q ≠ .primary ∧ recoveryPointer (s.flash.hdr .primary).magic = q.num ∧
    (s.flash.hdr .primary).crc ≠ (s.flash.hdr q).crc ∧
    ((∀ t, s.uploaded t = false) →
      (s.flash.hdr q).magic ≠ headerMagic ∧ isInternalMagic (s.flash.hdr q).magic = false)

variable {s : Sys B}

theorem installed_iff :
    Installed s ↔ isInternalMagic (s.flash.hdr .primary).magic = true ∧ validateImage s.flash .primary = true ∧
      s.confirmCalled = false := by
  rw [Installed, getImageHeader_eq]

theorem PointsAway.unconfirmed (h : PointsAway s) : Unconfirmed s := by
  intro hs
  obtain ⟨q, hq, hptr, hcrc, hmagic⟩ := h hs
  obtain ⟨hint, -, -⟩ := installed_iff.mp hs
  have hconf : s.flash.confirmed = false := by
    rw [confirmed_eq s.flash hint hq hptr]
    simpa using hcrc
  refine ⟨by rw [nxbootGetState_primaryConfirmed, hconf], fun hup hval => ?_⟩
  obtain ⟨hne, hext⟩ := hmagic hup
  rw [nxbootGetState_recoveryValid] at hval
  -- the recovery has a magic, so it is the other slot
  have hrm := (validImage_iff.mp (validateImage_eq s.flash _ ▸ hval)).1
  have hqu : q = s.flash.update := by
    refine (eq_update_or_recovery s.flash hq).resolve_right fun hqr => ?_
    rw [← Flash.hdr, ← hqr, hext] at hrm
    exact hne (hrm.resolve_right (by decide))
  have hrint : isInternalMagic (s.flash.hdr s.flash.recovery).magic = true :=
    hrm.resolve_left fun hm => hne (hqu ▸ magic_update_of_recovery s.flash hm)
  have hnext : (nxbootGetState s.flash).nextBoot = .revert :=
    (nextBoot_revert_iff s.flash).mpr
      ⟨fun hu => hne (hqu ▸ ((nextBoot_update_iff s.flash).mp hu).1), hrint, hval, .inl ⟨hint, hconf⟩⟩
  refine ⟨hnext, ?_⟩
  simp only [nxbootGetState_recovery, getImageHeader_eq]
  intro hsize
  rw [replay_revert s.flash hnext (Bool.and_false _) hsize]
  exact ⟨magic_copied hsize (blocksize_le_copySize ..) (by decide),
    (agree_over_src hsize).mono .refl (Nat.le_max_right _ _)⟩

theorem installed_congr {s s' : Sys B} (hpart : s'.flash.part .primary = s.flash.part .primary)
    (hcall : s'.confirmCalled = s.confirmCalled) : Installed s' ↔ Installed s := by
  rw [installed_iff, installed_iff, Flash.hdr, validateImage_eq, hpart, hcall, ← Flash.hdr, ← validateImage_eq]

theorem PointsAway.upload (h : PointsAway s) {img : Image} {n : Nat}
    (hk : KeepsUnconfirmed s (.upload img n)) : PointsAway (step s (.upload img n)) := by
  rcases Nat.eq_zero_or_pos n with rfl | hn
  · rw [step_upload_zero]
    exact h
  simp only [KeepsUnconfirmed, nxbootOpenUpdatePartition_eq, getImageHeader_eq] at hk
  have hflash : (step s (.upload img n)).flash = s.flash.over s.flash.update img.bytes n := by
    simp only [step, nxbootOpenUpdatePartition_eq]
  have hup : (step s (.upload img n)).uploaded s.flash.update = true := by
    simp only [step, nxbootOpenUpdatePartition_eq, if_neg (show n ≠ 0 by omega), Function.update_self]
  have hprim : Slot.primary ≠ s.flash.update := (update_ne_primary s.flash).symm
  intro hs'
  have hpart : (step s (.upload img n)).flash.part .primary = s.flash.part .primary := by
    rw [hflash, Flash.part_over_of_ne _ _ hprim]
  have hs : Installed s := (installed_congr hpart rfl).mp hs'
  obtain ⟨q, hq, hptr, hcrc, -⟩ := h hs
  rw [hflash, Flash.hdr_over_of_ne hprim]
  refine ⟨q, hq, hptr, ?_, fun hnone => ?_⟩
  · by_cases hqu : q = s.flash.update
    · rw [hqu]
      exact (hk hs (hqu ▸ hptr)).symm
    · rwa [Flash.hdr_over_of_ne hqu]
  · rw [hnone] at hup
    cases hup

theorem PointsAway.perform (h : PointsAway s) {check : Bool} {cut : Option Nat}
    (hk : KeepsUnconfirmed s (.perform check cut)) : PointsAway (step s (.perform check cut)) := by
  have hp := performs_upTo s.flash check cut
  simp only [KeepsUnconfirmed, getImageHeader_eq] at hk
  simp only [PointsAway, installed_iff, step]
  generalize replay FlashOp.apply s.flash (upTo cut (nxbootPerformUpdate s.flash check).2) = f' at hp hk ⊢
  generalize upTo cut (nxbootPerformUpdate s.flash check).2 = ops at hp hk ⊢
  cases hp with
  | idle => simpa [PointsAway, installed_iff] using h
  | revert _ _ _ hn hn' _ _ _ =>
    -- a reverted image is not internal
    have hm := magic_copied (f := s.flash) hn' hn (show headerMagic < 2 ^ 32 by decide)
    rintro ⟨hint, -⟩
    rw [hm] at hint
    cases hint
  | create _ _ hcreates _ _ _ _ hw =>
    -- only a confirmed image is saved
    have hprim : Slot.primary ≠ s.flash.recovery := (recovery_ne_primary s.flash).symm
    simp only [Flash.creates, Bool.and_eq_true] at hcreates
    rintro ⟨hint, hval, hcall⟩
    rw [Flash.hdr_over_of_ne hprim] at hint
    rw [any_writes_of_ne hw hprim, Bool.and_false, Bool.not_false, Bool.and_true] at hcall
    obtain ⟨q, hq, hptr, hcrc, -⟩ := h (installed_iff.mpr ⟨hint, hcreates.2, hcall⟩)
    have hconf := hcreates.1.2
    rw [confirmed_eq s.flash hint hq hptr] at hconf
    exact absurd (beq_iff_eq.mp hconf) hcrc
  | install hnext _ h₁ _ _ _ _ hu hw =>
    obtain ⟨hvalid, -⟩ := hk hnext (by rw [List.any_append, any_writes hw hu, Bool.or_true])
    rintro ⟨-, hval, -⟩
    rw [hvalid (by rw [List.any_append, any_isErase_of_writes h₁.writes, any_isErase_of_writes hw]; rfl)] at hval
    cases hval
  | @erase f₁ c u hnext _ h₁ _ hn' hu hw =>
    obtain ⟨-, hcrc⟩ := hk hnext
      (by rw [List.any_append, List.any_append, any_writes hw hu, Bool.true_or, Bool.or_true])
    have hprim : Slot.primary ≠ s.flash.update := (update_ne_primary s.flash).symm
    have hm : _ = s.flash.installMagic := magic_copied (f := f₁) hn' (blocksize_le_copySize ..) (or_lt _)
    intro _
    refine ⟨s.flash.update, update_ne_primary s.flash, ?_, ?_, fun _ => magic_erase _ _⟩
    · rw [Flash.hdr_erase_of_ne _ hprim, hm, Flash.installMagic, recoveryPointer_or]
    · have hword : ∀ f : Flash B, ((f.erase s.flash.update).hdr s.flash.update).crc = erasedWord B :=
        fun f => field_erase f _ (by decide : 8 + 4 ≤ 128)
      rw [hword]
      exact hcrc (by simp [FlashOp.isErase])

theorem PointsAway.step {e : Event} (h : PointsAway s) (hk : KeepsUnconfirmed s e) : PointsAway (step s e) := by
  cases e with
  | upload img n => exact h.upload hk
  | confirm cut =>
    rintro ⟨-, -, hcall⟩
    cases hcall
  | perform check cut => exact h.perform hk

/-- **Only `nxboot_confirm` confirms an image.** In every run from a factory image whose steps meet the condition, an
installed image is unconfirmed until `nxboot_confirm` is called, and reverted by the next boot. -/
theorem stays_unconfirmed {f : Flash B} (hmagic : (getImageHeader f .primary).magic = headerMagic) {es : List Event}
    (hes : Guarded step KeepsUnconfirmed (Sys.factory f) es) : Along step Unconfirmed (Sys.factory f) es := by
  have h₀ : PointsAway (Sys.factory f) := by
    rintro ⟨hint, -, -⟩
    rw [Sys.factory, hmagic] at hint
    cases hint
  exact (along_of_guarded (fun _ _ h hk => h.step hk) h₀ hes).mono fun _ h => h.unconfirmed

def device (k : Nat) (hk : 2 ≤ k ∧ k ≤ 7) : Sys (Board.uniform (sectors 2 k sectors_two hk) false) :=
  Sys.factory (Flash.factory _ imageA)

theorem stays_unconfirmed_cutUpdate :
    Along step Unconfirmed (device 4 (by decide))
      [.perform false none, .upload imageB 140, .perform false (some 12), .perform false none, .perform false none] :=
  stays_unconfirmed (by decide +kernel) (by decide +kernel)

theorem not_unconfirmed (h : Installed s ∧ (nxbootGetState s.flash).primaryConfirmed = true) : ¬ Unconfirmed s := by
  intro hu
  obtain ⟨hinstalled, hc⟩ := h
  rw [(hu hinstalled).1] at hc
  cases hc

/-- The update is cut behind its last write to the primary slot. The update slot still has the CRC, so the new image is
confirmed. -/
theorem confirmed_before_erase :
    let es := [.perform false none, .upload imageB 140, .perform false (some 18)]
    Guarded step Allowed (device 4 (by decide)) es ∧
      ¬ Unconfirmed (replay step (device 4 (by decide)) es) ∧
      (nxbootGetState (replay step (device 4 (by decide)) es).flash).nextBoot = .none :=
  ⟨by decide +kernel, not_unconfirmed (by decide +kernel), by decide +kernel⟩

/-- The installed image is uploaded again. -/
theorem confirmed_by_upload :
    let es := [.perform false none, .upload imageB 140, .perform false none, .upload imageB 140]
    Guarded step Allowed (device 4 (by decide)) es ∧ ¬ Unconfirmed (replay step (device 4 (by decide)) es) :=
  ⟨by decide +kernel, not_unconfirmed (by decide +kernel)⟩

/-- The installed image has the CRC `0xffffffff`. -/
theorem confirmed_by_erase :
    let es := [.perform false none, .upload (nximage 136 0 ⟨1, 1, 0, []⟩ [132, 158, 218, 19]) 140, .perform false none]
    Guarded step Allowed (device 4 (by decide)) es ∧ ¬ Unconfirmed (replay step (device 4 (by decide)) es) :=
  ⟨by decide +kernel, not_unconfirmed (by decide +kernel)⟩

end NuttxApps.Nxboot
