import NuttxApps.Nxboot.Confirmed

/-!
# No update without an upload

`NXBOOT_HEADER_MAGIC` marks an update, the internal magic a recovery, and `copy_partition` flips the magic of what it
copies. Where only a factory image is saved (`NoResave`), the boot loader updates only to what was uploaded since the
last completed update (`no_unrequested_update`).
-/

namespace NuttxApps.Nxboot

open Bytes Replay

variable {B : Board}

/-- Only an uploaded image is selected as an update. A saved recovery is internal,
and never selected. -/
structure Requested (s : Sys B) : Prop where
  uploaded : (nxbootGetState s.flash).nextBoot = .update → s.uploaded (nxbootGetState s.flash).update = true
  internal : ∀ t, s.saved t = true → isInternalMagic (getImageHeader s.flash t).magic = true
  recovery : (nxbootGetState s.flash).nextBoot = .update → s.saved (nxbootGetState s.flash).update = false

/-- Where an update is due and the primary image is an installed and confirmed one, it is already there as a valid
recovery. -/
def NoResave (s : Sys B) : Event → Prop
  | .upload _ _ => True
  | .confirm _ => True
  | .perform checkOnly _ =>
    let state := nxbootGetState s.flash
    state.nextBoot = .update → checkOnly = false → isInternalMagic (getImageHeader s.flash .primary).magic = true →
      state.primaryConfirmed = true → validateImage s.flash .primary = true →
      state.recoveryPresent = true ∧ state.recoveryValid = true

instance (s : Sys B) : (e : Event) → Decidable (NoResave s e)
  | .upload _ _ => .isTrue trivial
  | .confirm _ => .isTrue trivial
  | .perform _ _ => inferInstanceAs (Decidable (_ → _ → _ → _ → _ → _ ∧ _))

/-- The slots with an update were uploaded to, there is one of them at most, and a saved recovery is internal. -/
structure Traced (f : Flash B) (uploaded saved : Slot → Bool) : Prop where
  primary : (f.hdr .primary).magic = headerMagic ∨ isInternalMagic (f.hdr .primary).magic = true
  update : ∀ t, t ≠ .primary → (f.hdr t).magic = headerMagic → uploaded t = true
  one : ∀ t u, t ≠ .primary → u ≠ .primary → (f.hdr t).magic = headerMagic → (f.hdr u).magic = headerMagic → t = u
  saved : ∀ t, saved t = true → t ≠ .primary ∧ isInternalMagic (f.hdr t).magic = true

section

variable {f : Flash B} {uploaded saved : Slot → Bool}

theorem Traced.requested {s : Sys B} (h : Traced s.flash s.uploaded s.saved) : Requested s := by
  have hmagic : (nxbootGetState s.flash).nextBoot = .update → (s.flash.hdr s.flash.update).magic = headerMagic :=
    fun hnext => ((nextBoot_update_iff s.flash).mp hnext).1
  refine ⟨fun hnext => ?_, fun t ht => ?_, fun hnext => ?_⟩
  · rw [nxbootGetState_update]
    exact h.update _ (update_ne_primary _) (hmagic hnext)
  · rw [getImageHeader_eq]
    exact (h.saved t ht).2
  · rw [nxbootGetState_update]
    by_contra hs
    exact ne_headerMagic_of_isInternalMagic (h.saved _ (by simpa using hs)).2 (hmagic hnext)

variable (h : Traced f uploaded saved)

include h

theorem Traced.recovery : (f.hdr f.recovery).magic ≠ headerMagic := fun hr =>
  update_ne_recovery f
    (h.one _ _ (update_ne_primary f) (recovery_ne_primary f) (magic_update_of_recovery f hr) hr)

theorem Traced.mono {saved' : Slot → Bool} (hs : ∀ t, saved' t = true → saved t = true) : Traced f uploaded saved' :=
  ⟨h.primary, h.update, h.one, fun t ht => h.saved t (hs t ht)⟩

theorem Traced.over_primary {a : List UInt8} {n : Nat} (hm : ((f.over .primary a n).hdr .primary).magic = headerMagic ∨
      isInternalMagic ((f.over .primary a n).hdr .primary).magic = true) :
    Traced (f.over .primary a n) uploaded saved := by
  have hhdr : ∀ t, t ≠ .primary → (f.over .primary a n).hdr t = f.hdr t := fun t ht => f.hdr_over_of_ne ht a n
  refine ⟨hm, fun t ht => ?_, fun t u ht hu => ?_, fun t hs => ?_⟩
  · rw [hhdr t ht]
    exact h.update t ht
  · rw [hhdr t ht, hhdr u hu]
    exact h.one t u ht hu
  · rw [hhdr t (h.saved t hs).1]
    exact h.saved t hs

theorem Traced.over_internal {s : Slot} (hs : s ≠ .primary) {a : List UInt8} {n : Nat}
    (hm : isInternalMagic ((f.over s a n).hdr s).magic = true) :
    Traced (f.over s a n) uploaded (Function.update saved s true) := by
  have hhdr : ∀ t, t ≠ s → (f.over s a n).hdr t = f.hdr t := fun t ht => f.hdr_over_of_ne ht a n
  -- a slot with an update is another one, as it was
  have hold : ∀ t, ((f.over s a n).hdr t).magic = headerMagic → (f.hdr t).magic = headerMagic := by
    intro t ht
    by_cases hts : t = s
    · exact absurd (hts ▸ ht) (ne_headerMagic_of_isInternalMagic hm)
    · rwa [hhdr t hts] at ht
  refine ⟨?_, fun t ht htm => h.update t ht (hold t htm),
    fun t u ht hu htm hum => h.one t u ht hu (hold t htm) (hold u hum),
    fun t hsaved => ?_⟩
  · rw [hhdr _ hs.symm]
    exact h.primary
  · by_cases hts : t = s
    · rw [hts]
      exact ⟨hs, hm⟩
    · rw [Function.update_of_ne hts] at hsaved
      rw [hhdr t hts]
      exact h.saved t hsaved

theorem Traced.erase {s : Slot} (hs : s ≠ .primary) (hm : (f.hdr s).magic = headerMagic) :
    Traced (f.erase s) (fun _ => false) saved := by
  have hhdr : ∀ t, t ≠ s → (f.erase s).hdr t = f.hdr t := fun t ht => f.hdr_erase_of_ne ht
  have hnone : ∀ t, t ≠ .primary → ((f.erase s).hdr t).magic ≠ headerMagic := by
    intro t ht htm
    by_cases hts : t = s
    · exact (magic_erase f s).1 (hts ▸ htm)
    · rw [hhdr t hts] at htm
      exact hts (h.one t s ht hs htm hm)
  refine ⟨?_, fun t ht htm => absurd htm (hnone t ht), fun t _ ht _ htm => absurd htm (hnone t ht), fun t hsaved => ?_⟩
  · rw [hhdr _ hs.symm]
    exact h.primary
  · obtain ⟨ht, hint⟩ := h.saved t hsaved
    have hts : t ≠ s := fun hts => ne_headerMagic_of_isInternalMagic hint (hts ▸ hm)
    rw [hhdr t hts]
    exact ⟨ht, hint⟩

theorem Traced.upload (img : Image) (n : Nat) :
    Traced (f.over f.update img.bytes n) (Function.update uploaded f.update true)
      (Function.update saved f.update false) := by
  have hhdr : ∀ t, t ≠ f.update → (f.over f.update img.bytes n).hdr t = f.hdr t :=
    fun t ht => f.hdr_over_of_ne ht _ n
  have honly : ∀ t, t ≠ .primary → ((f.over f.update img.bytes n).hdr t).magic = headerMagic → t = f.update := by
    intro t ht htm
    by_contra htu
    rw [hhdr t htu, (eq_update_or_recovery f ht).resolve_left htu] at htm
    exact h.recovery htm
  refine ⟨?_, fun t ht htm => ?_, fun t u ht hu htm hum => (honly t ht htm).trans (honly u hu hum).symm,
    fun t hsaved => ?_⟩
  · rw [hhdr _ (update_ne_primary f).symm]
    exact h.primary
  · rw [honly t ht htm, Function.update_self]
  · have htu : t ≠ f.update := by
      rintro rfl
      rw [Function.update_self] at hsaved
      cases hsaved
    rw [Function.update_of_ne htu] at hsaved
    rw [hhdr t htu]
    exact h.saved t hsaved

theorem Traced.confirm (cut : Option Nat) :
    Traced (replay FlashOp.apply f (upTo cut (nxbootConfirm f).2)) uploaded saved := by
  rcases confirms_upTo f cut with hnil | ⟨hconf, n, hn, hn', hre⟩
  · rw [hnil, replay_nil]
    exact h
  · have hint : isInternalMagic (f.hdr .primary).magic = true := by
      refine h.primary.resolve_left fun hm => ?_
      rw [confirmed_of_headerMagic f hm] at hconf
      cases hconf
    rw [hre]
    refine (h.over_internal (update_ne_primary f) ?_).mono fun t ht => ?_
    · rw [magic_copied hn' hn (f.magic_lt .primary)]
      exact hint
    · by_cases htu : t = f.update
      · rw [htu, Function.update_self]
      · rwa [Function.update_of_ne htu]

theorem Traced.over_saved (hext : isInternalMagic (f.hdr .primary).magic = false) {n : Nat}
    (hn : (B.geom f.recovery).blocksize ≤ n) (hn' : n ≤ reach B .primary f.recovery) (b : Bool) :
    Traced (f.over f.recovery (patched f .primary f.createMagic) n) uploaded
      (if b then Function.update saved f.recovery true else saved) := by
  have hc : f.createMagic = headerMagicInt := if_neg (by rw [hext]; decide)
  have hm : _ = f.createMagic := magic_copied (f := f) hn' hn (by rw [hc]; decide)
  refine (h.over_internal (recovery_ne_primary f) (by rw [hm, hc]; decide)).mono fun t ht => ?_
  by_cases htr : t = f.recovery
  · rw [htr, Function.update_self]
  · rw [Function.update_of_ne htr]
    split at ht
    · rwa [Function.update_of_ne htr] at ht
    · exact ht

theorem Traced.created (hext : f.creates = true → isInternalMagic (f.hdr .primary).magic = false)
    {c : List FlashOp} {f₁ : Flash B} (h₁ : Created f c f₁) {b : Bool} (hb : b = true → c ≠ []) :
    Traced f₁ uploaded (if b then Function.update saved f.recovery true else saved) := by
  cases h₁ with
  | skip =>
    rw [if_neg fun h => hb h rfl]
    exact h
  | copy hcreates _ hn hn' _ _ _ => exact h.over_saved (hext hcreates) hn hn' b

end

theorem Traced.perform {s : Sys B} (h : Traced s.flash s.uploaded s.saved) {check : Bool} {cut : Option Nat}
    (hk : NoResave s (.perform check cut)) :
    Traced (step s (.perform check cut)).flash (step s (.perform check cut)).uploaded
      (step s (.perform check cut)).saved := by
  -- an image is saved only where it is not an installed one
  have hext : (nxbootGetState s.flash).nextBoot = .update → (check = true → validateImage s.flash .primary = false) →
      s.flash.creates = true → isInternalMagic (s.flash.hdr .primary).magic = false := by
    intro hnext hcheck hcreates
    simp only [Flash.creates, Bool.and_eq_true] at hcreates
    obtain ⟨⟨hmissing, hconf⟩, hval⟩ := hcreates
    by_contra hint
    simp only [NoResave, getImageHeader_eq, nxbootGetState_primaryConfirmed, nxbootGetState_recoveryPresent,
      nxbootGetState_recoveryValid] at hk
    obtain ⟨hpresent, hrval⟩ := hk hnext (by simpa [hval] using hcheck) (by simpa using hint) hconf hval
    rw [hpresent, hrval] at hmissing
    cases hmissing
  have hp := performs_upTo s.flash check cut
  simp only [step, nxbootGetState_recovery]
  generalize replay FlashOp.apply s.flash (upTo cut (nxbootPerformUpdate s.flash check).2) = f' at hp ⊢
  generalize upTo cut (nxbootPerformUpdate s.flash check).2 = ops at hp ⊢
  cases hp with
  | idle => simpa using h
  | revert hnext _ _ hn hn' _ _ hw =>
    have hm := magic_copied (f := s.flash) hn' hn (show headerMagic < 2 ^ 32 by decide)
    rw [any_isErase_of_writes hw, any_writes_of_ne hw (recovery_ne_primary s.flash), Bool.and_false]
    exact h.over_primary (.inl hm)
  | create hnext hcheck hcreates _ hn hn' _ hw =>
    rw [any_isErase_of_writes hw]
    exact h.over_saved (hext hnext hcheck hcreates) hn hn' _
  | @install f₁ c u n hnext hcheck h₁ _ hn hn' _ _ hw =>
    have hm : _ = s.flash.installMagic := magic_copied (f := f₁) hn' hn (or_lt _)
    rw [List.any_append, any_isErase_of_writes h₁.writes, any_isErase_of_writes hw]
    refine (h.created (hext hnext hcheck) h₁ fun hb hc => ?_).over_primary (.inr ?_)
    · rw [hc, List.nil_append, any_writes_of_ne hw (recovery_ne_primary s.flash), Bool.and_false] at hb
      cases hb
    · rw [hm]
      exact isInternalMagic_or _
  | @erase f₁ c u hnext hcheck h₁ _ hn' _ hw =>
    have hm : _ = s.flash.installMagic := magic_copied (f := f₁) hn' (blocksize_le_copySize ..) (or_lt _)
    rw [if_pos (by simp [FlashOp.isErase])]
    refine ((h.created (hext hnext hcheck) h₁ fun hb hc => ?_).over_primary (.inr ?_)).erase
      (update_ne_primary s.flash) ?_
    · rw [hc, List.nil_append, List.any_append, any_writes_of_ne hw (recovery_ne_primary s.flash)] at hb
      simp [FlashOp.writes] at hb
    · rw [hm]
      exact isInternalMagic_or _
    · rw [Flash.hdr_over_of_ne (update_ne_primary s.flash), h₁.hdr_update]
      exact ((nextBoot_update_iff s.flash).mp hnext).1

theorem Traced.step {s : Sys B} {e : Event} (h : Traced s.flash s.uploaded s.saved) (hk : NoResave s e) :
    Traced (step s e).flash (step s e).uploaded (step s e).saved := by
  cases e with
  | upload img n =>
    rcases Nat.eq_zero_or_pos n with rfl | hn
    · rw [step_upload_zero]
      exact h
    · simp only [Nxboot.step, nxbootOpenUpdatePartition_eq, if_neg (show n ≠ 0 by omega)]
      exact h.upload img n
  | confirm cut => exact h.confirm cut
  | perform check cut => exact h.perform hk

/-- **No update without an upload.** In every run from a factory image in which no installed image is saved as recovery,
only an uploaded image is selected as an update, and a saved recovery is internal and never selected. -/
theorem no_unrequested_update {f : Flash B} (hmagic : (getImageHeader f .primary).magic = headerMagic)
    (hsecondary : (getImageHeader f .secondary).magic ≠ headerMagic)
    (htertiary : (getImageHeader f .tertiary).magic ≠ headerMagic) {es : List Event}
    (hes : Guarded step NoResave (Sys.factory f) es) : Along step Requested (Sys.factory f) es := by
  simp only [getImageHeader_eq] at hmagic hsecondary htertiary
  have hother : ∀ t, t ≠ .primary → (f.hdr t).magic ≠ headerMagic
    | .primary, h => absurd rfl h
    | .secondary, _ => hsecondary
    | .tertiary, _ => htertiary
  have h₀ : Traced (Sys.factory f).flash (Sys.factory f).uploaded (Sys.factory f).saved :=
    ⟨.inl hmagic, fun t ht htm => absurd htm (hother t ht), fun t _ ht _ htm => absurd htm (hother t ht),
      fun _ h => by cases h⟩
  have hrun : Along step (fun s => Traced s.flash s.uploaded s.saved) (Sys.factory f) es :=
    along_of_guarded (fun _ _ h hk => h.step hk) h₀ hes
  exact hrun.mono fun _ h => h.requested

theorem no_unrequested_update_twice :
    Along step Requested (device 4 (by decide))
      [.perform false none, .upload imageB 140, .perform false none, .confirm none, .upload imageA 140,
        .perform false none, .confirm none] :=
  no_unrequested_update (by decide +kernel) (by decide +kernel) (by decide +kernel) (by decide +kernel)

theorem not_requested {s : Sys B} (h : (nxbootGetState s.flash).nextBoot = .update ∧
    s.uploaded (nxbootGetState s.flash).update = false) : ¬ Requested s := by
  intro hr
  obtain ⟨hdue, hnot⟩ := h
  rw [hr.uploaded hdue] at hnot
  cases hnot

/-- An upload of `imageA` in front of the confirmation of `imageB` leaves a recovery that is not valid. The next update
saves `imageB` again, with `NXBOOT_HEADER_MAGIC`, and the boot after it updates back to it. -/
theorem update_resaved :
    let es := [.perform false none, .upload imageB 140, .perform false none, .upload imageA 140, .confirm none,
      .upload imageA 140, .perform false none]
    Guarded step Allowed (device 4 (by decide)) es ∧ ¬ Requested (replay step (device 4 (by decide)) es) :=
  ⟨by decide +kernel, not_requested (by decide +kernel)⟩

end NuttxApps.Nxboot
