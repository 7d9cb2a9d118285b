import NuttxApps.Nxboot.Requested

/-!
# A cut confirmation

An installed image is confirmed by writing its first erase sector back to the update slot, block by block, and counts as
confirmed as soon as the block with the CRC is there. `confirm_safe_iff`: a cut in between is harmless where the rest of
the image is already in that slot.
-/

namespace NuttxApps.Nxboot

open Bytes Replay
open List hiding le min max

variable {B : Board}

/-- A valid, unconfirmed internal image in the primary slot that points to the slot `q`. -/
@[mk_iff]
structure Pending (f : Flash B) (q : Slot) : Prop where
  internal : isInternalMagic (getImageHeader f .primary).magic = true
  valid : validateImage f .primary = true
  unconfirmed : (nxbootGetState f).primaryConfirmed = false
  slot : q ≠ .primary
  pointer : recoveryPointer (getImageHeader f .primary).magic = q.num
  header : 24 ≤ (getImageHeader f .primary).length
  fits : (getImageHeader f .primary).length ≤ (B.geom .primary).size

instance (f : Flash B) (q : Slot) : Decidable (Pending f q) := decidable_of_iff' _ (pending_iff f q)

structure Recovers (f : Flash B) (q : Slot) : Prop where
  valid : validateImage f q = true
  bytes : Agree (f.part q) (f.part .primary) 4 (getImageHeader f .primary).length.toNat

/-- The slot as a completed update leaves it: the first sector is erased, and the rest of the image is there. -/
structure AfterUpdate (f : Flash B) (q : Slot) : Prop where
  erased : Agree (f.part q) (List.replicate (B.geom q).erasesize B.erased) 0 (B.geom q).erasesize
  rest : Agree (f.part q) (f.part .primary) (B.geom q).erasesize (getImageHeader f .primary).length.toNat

/-- After every prefix of the writes of `nxboot_confirm` the image is not confirmed or has its recovery, and it has it
after all of them where nothing was uploaded since the update. -/
structure ConfirmSafe (f : Flash B) (q : Slot) : Prop where
  cut : ∀ k, let f' := replay FlashOp.apply f ((nxbootConfirm f).2.take k)
    (nxbootGetState f').primaryConfirmed = false ∨ Recovers f' q
  complete : AfterUpdate f q → Recovers (replay FlashOp.apply f (nxbootConfirm f).2) q

def crcBlocks (g : Geometry) : Nat := (8 / g.blocksize + 1) * g.blocksize

theorem crcBlocks_bounds (g : Geometry) : 12 ≤ crcBlocks g ∧ crcBlocks g ≤ max 16 g.blocksize := by
  obtain ⟨k, hk, h⟩ := g.blocksize_pow
  rw [crcBlocks, h]
  rcases Nat.lt_or_ge k 4 with hk4 | hk4
  · obtain rfl | rfl : k = 2 ∨ k = 3 := by omega
    all_goals decide
  · have h16 : 2 ^ 4 ≤ 2 ^ k := Nat.pow_le_pow_right (by decide) hk4
    rw [Nat.div_eq_of_lt (by omega)]
    omega

/-! ## The writes of a confirmation -/

theorem blockWrites_block {s : Slot} {b off : Nat} {d : List UInt8} (hb : 0 < b) (hd : d.length = b) :
    blockWrites s b b off d = [.write s off d] := by
  obtain ⟨m, rfl⟩ := Nat.exists_eq_add_of_le' hb
  cases d with
  | nil => cases hd
  | cons x d =>
    rw [blockWrites, take_of_length_le (by omega), drop_eq_nil_of_le (by omega)]
    cases m <;> rfl

/-- Operations that copy `remain` bytes: a prefix of `k` of them leaves `k` blocks, or all that lie in both slots. -/
def CopiesBlocks (f : Flash B) (src dst : Slot) (off remain : Nat) (ops : List FlashOp) : Prop :=
  ∀ k, ∃ m, m ≤ k ∧ off + m * (B.geom dst).blocksize ≤ reach B src dst ∧
    (∀ j, j ≤ k → j * (B.geom dst).blocksize ≤ remain → off + j * (B.geom dst).blocksize ≤ reach B src dst → j ≤ m) ∧
    replay FlashOp.apply (f.over dst (f.part src) off) (ops.take k) =
      f.over dst (f.part src) (off + m * (B.geom dst).blocksize)

section

variable {f : Flash B} {src dst : Slot} {off remain : Nat}

theorem CopiesBlocks.stop (hoff : off ≤ reach B src dst)
    (h : remain < (B.geom dst).blocksize ∨ reach B src dst < off + (B.geom dst).blocksize) :
    CopiesBlocks f src dst off remain [] := by
  refine fun k => ⟨0, Nat.zero_le _, by omega, fun j _ hj hj' => Nat.le_of_not_lt fun hpos => ?_, ?_⟩
  · have := Nat.mul_le_mul_right (B.geom dst).blocksize hpos
    omega
  · rw [take_nil, replay_nil, Nat.zero_mul, Nat.add_zero]

theorem CopiesBlocks.step {ops : List FlashOp} (hoff : off + (B.geom dst).blocksize ≤ reach B src dst)
    (h : CopiesBlocks f src dst (off + (B.geom dst).blocksize) (remain - (B.geom dst).blocksize) ops) :
    CopiesBlocks f src dst off remain
      (.write dst off (((f.part src).drop off).take (B.geom dst).blocksize) :: ops) := by
  intro k
  cases k with
  | zero =>
    exact ⟨0, .refl, by omega, fun j hj _ _ => hj,
      by rw [take_zero, replay_nil, Nat.zero_mul, Nat.add_zero]⟩
  | succ k =>
    obtain ⟨m, hk, hm, hmax, hre⟩ := h k
    have hadd : ∀ j, off + (j + 1) * (B.geom dst).blocksize =
        off + (B.geom dst).blocksize + j * (B.geom dst).blocksize := fun j => by rw [Nat.succ_mul]; omega
    refine ⟨m + 1, Nat.succ_le_succ hk, by rw [hadd]; exact hm, fun j hjk hj hj' => ?_, ?_⟩
    · cases j with
      | zero => exact Nat.zero_le _
      | succ j =>
        rw [hadd] at hj'
        rw [Nat.succ_mul] at hj
        exact Nat.succ_le_succ (hmax j (by omega) (by omega) hj')
    · have hlen : off ≤ (f.part src).length := by
        rw [f.length_part]
        simp only [reach] at hoff
        omega
      rw [take_succ_cons, replay_cons, FlashOp.apply, Flash.write_over _ _ _ hlen, hadd, hre]

theorem copiesBlocks_copyLoop {fuel : Nat} (hfuel : remain ≤ fuel) (hdvd : (B.geom dst).blocksize ∣ remain)
    (hoff : off ≤ reach B src dst) :
    CopiesBlocks f src dst off remain (copyLoop f src dst (B.geom dst).blocksize fuel off remain).2 := by
  have h4 := (B.geom dst).four_le
  induction fuel generalizing off remain with
  | zero => exact .stop hoff (.inl (by omega))
  | succ fuel ih =>
    rcases Nat.eq_zero_or_pos remain with rfl | hpos
    · exact .stop hoff (.inl (by omega))
    have hle : (B.geom dst).blocksize ≤ remain := Nat.le_of_dvd hpos hdvd
    have hmin : min (B.geom dst).blocksize remain = (B.geom dst).blocksize := Nat.min_eq_left hle
    rcases Nat.lt_or_ge (B.geom src).size ((B.geom dst).blocksize + off) with hr | hr
    · simp only [copyLoop, if_pos hpos, readsiz_eq, hmin, flashPartitionRead_none hr]
      exact .stop hoff (.inr (by simp only [reach]; omega))
    have hbuf : (((f.part src).drop off).take (B.geom dst).blocksize).length = (B.geom dst).blocksize := by
      rw [length_take, length_drop, f.length_part]
      omega
    rcases Nat.lt_or_ge (B.geom dst).size ((B.geom dst).blocksize + off) with hw | hw
    · simp only [copyLoop, if_pos hpos, readsiz_eq, hmin, flashPartitionRead_some hr,
        flashPartitionWrite_none (hbuf.symm ▸ hw)]
      exact .stop hoff (.inr (by simp only [reach]; omega))
    have hreach : off + (B.geom dst).blocksize ≤ reach B src dst := by
      simp only [reach]
      omega
    simp only [copyLoop, if_pos hpos, readsiz_eq, hmin, flashPartitionRead_some hr,
      flashPartitionWrite_some (hbuf.symm ▸ hw)]
    rw [hbuf, blockWrites_block (by omega) hbuf, singleton_append]
    exact .step hreach (ih (by omega) (Nat.dvd_sub hdvd (Nat.dvd_refl _)) hreach)

end

theorem copiesBlocks_confirm {f : Flash B} (hconf : f.confirmed = false) :
    CopiesBlocks f .primary f.update 0 (B.geom f.update).erasesize (nxbootConfirm f).2 := by
  rw [nxbootConfirm_eq hconf]
  exact copiesBlocks_copyLoop .refl (B.geom f.update).blocksize_dvd (Nat.zero_le _)

section

variable {f : Flash B} {q : Slot}

theorem AfterUpdate.not_recovers (h : AfterUpdate f q) : ¬ Recovers f q := by
  have h128 := (B.geom q).header_le
  have hmagic : (f.hdr q).magic = le (List.replicate 4 B.erased) := by
    have : (f.hdr q).magic = _ := field_congr (h.erased.mono (Nat.zero_le _) (show 0 + 4 ≤ _ by omega))
    rw [this, field, drop_zero, take_replicate, Nat.min_eq_left (by omega)]
  intro hr
  have hval := hr.valid
  rw [validateImage_eq] at hval
  have := (validImage_iff.mp hval).1
  rw [← Flash.hdr, hmagic, (magic_replicate _).2] at this
  exact (magic_replicate _).1 (this.resolve_right (by decide))

variable (hp : Pending f q) {n : Nat} (hn : n ≤ reach B .primary q)
include hp

theorem Pending.confirmed : f.confirmed = false := by
  rw [← nxbootGetState_primaryConfirmed]
  exact hp.unconfirmed

theorem Pending.confirmed_of_hdr {f' : Flash B} (hprim : f'.hdr .primary = f.hdr .primary) :
    (nxbootGetState f').primaryConfirmed = ((f.hdr .primary).crc == (f'.hdr q).crc) := by
  have hint := hp.internal
  have hptr := hp.pointer
  rw [getImageHeader_eq, ← hprim] at hint hptr
  rw [nxbootGetState_primaryConfirmed, confirmed_eq f' hint hp.slot hptr, hprim]

theorem Pending.unconfirmed_of_hdr {f' : Flash B} (hprim : f'.hdr .primary = f.hdr .primary)
    (hcrc : (f'.hdr q).crc = (f.hdr q).crc) : (nxbootGetState f').primaryConfirmed = false := by
  rw [hp.confirmed_of_hdr hprim, hcrc, ← hp.confirmed_of_hdr rfl]
  exact hp.unconfirmed

include hn

theorem Pending.unconfirmed_over (h8 : n ≤ 8) :
    (nxbootGetState (f.over q (f.part .primary) n)).primaryConfirmed = false := by
  refine hp.unconfirmed_of_hdr (f.hdr_over_of_ne hp.slot.symm _ n) (field_congr ?_)
  exact (f.agree_over_rest q _ (le_length_src hn) (le_size_dst hn) 12).mono h8 .refl

theorem Pending.confirmed_over (h12 : 12 ≤ n) :
    (nxbootGetState (f.over q (f.part .primary) n)).primaryConfirmed = true := by
  have hcrc : ((f.over q (f.part .primary) n).hdr q).crc = (f.hdr .primary).crc :=
    field_congr ((f.agree_over q _ (le_length_src hn) (le_size_dst hn)).mono (Nat.zero_le _) h12)
  rw [hp.confirmed_of_hdr (f.hdr_over_of_ne hp.slot.symm _ n), hcrc]
  exact beq_self_eq_true _

omit hn in
theorem Pending.valid_of_agree {p : List UInt8} {l : Nat} (hl : (f.hdr .primary).length = l)
    (h : Agree p (f.part .primary) 0 l) : validImage B p = true := by
  have h24 := hp.header
  have hfits := hp.fits
  rw [getImageHeader_eq, hl] at h24 hfits
  have hvalid := hp.valid
  rw [validateImage_eq] at hvalid
  have hint := hp.internal
  rw [getImageHeader_eq] at hint
  have hremain : 12 + (ImgHeader.ofBytes (f.part .primary)).remain = l := by
    have := ImgHeader.remain_eq (h := f.hdr .primary) (by rw [hl]; omega)
    rw [hl] at this
    exact Int.ofNat.inj this
  have hlen : l ≤ (f.part .primary).length := by
    rw [f.length_part]
    omega
  refine validImage_of_agree hvalid (.inr ?_) (Eq.trans (field_congr ?_) (validImage_iff.mp hvalid).2.1)
    (h.mono (by omega) (by omega)) (fun _ => ⟨?_, ?_⟩) fun hout => ?_
  · have hm : (ImgHeader.ofBytes p).magic = (f.hdr .primary).magic := field_congr (h.mono .refl (by omega))
    rw [hm]
    exact hint
  · exact h.mono (by omega) (by omega)
  · -- the last byte of the image is there
    have hlast := h (l - 1) (Nat.zero_le _) (by omega)
    rw [getElem?_eq_getElem (l := f.part .primary) (by omega)] at hlast
    have := (List.getElem?_eq_some_iff.mp hlast).1
    omega
  · rw [hremain]
    exact h.mono (by omega) .refl
  · rw [hremain] at hout
    omega

theorem Pending.recovers_over_iff (h12 : 12 ≤ n) :
    Recovers (f.over q (f.part .primary) n) q ↔
      Agree (f.part q) (f.part .primary) n (f.hdr .primary).length.toNat := by
  have hprim : (f.over q (f.part .primary) n).part .primary = f.part .primary := f.part_over_of_ne _ hp.slot.symm
  have hover := f.getElem?_over q (f.part .primary) (le_length_src hn) (le_size_dst hn)
  have hlen : (getImageHeader (f.over q (f.part .primary) n) .primary).length = (f.hdr .primary).length := by
    rw [getImageHeader_eq, Flash.hdr, hprim, Flash.hdr]
  obtain ⟨l, hl⟩ : ∃ l : Nat, (f.hdr .primary).length = l := by
    have := hp.header
    rw [getImageHeader_eq] at this
    exact Int.eq_ofNat_of_zero_le (by omega)
  rw [hl, Int.toNat_natCast]
  constructor
  · intro hr i hi hi'
    have := hr.bytes i (by omega) (by rw [hlen, hl]; exact hi')
    rwa [hover, if_neg (by omega), hprim] at this
  · intro hrest
    have hall : Agree ((f.over q (f.part .primary) n).part q) (f.part .primary) 0 l := by
      intro i _ hi
      rw [hover]
      split
      · rfl
      · exact hrest i (by omega) hi
    refine ⟨by rw [validateImage_eq]; exact hp.valid_of_agree hl hall, ?_⟩
    rw [hlen, hprim, hl, Int.toNat_natCast]
    exact hall.mono (Nat.zero_le _) .refl

end

section

variable {f : Flash B} {q : Slot} (hp : Pending f q)
include hp

theorem Pending.safe_iff_of_part (hq : ∀ k, (replay FlashOp.apply f ((nxbootConfirm f).2.take k)).part q = f.part q)
    (hprim : ∀ k, (replay FlashOp.apply f ((nxbootConfirm f).2.take k)).part .primary = f.part .primary) :
    ConfirmSafe f q ↔ ¬ AfterUpdate f q := by
  constructor
  · intro hs hafter
    refine hafter.not_recovers ?_
    have hall := hs.complete hafter
    have hq' := hq (nxbootConfirm f).2.length
    have hprim' := hprim (nxbootConfirm f).2.length
    rw [take_length] at hq' hprim'
    have hval := hall.valid
    have hbytes := hall.bytes
    rw [validateImage_eq, hq', ← validateImage_eq] at hval
    rw [getImageHeader_eq, Flash.hdr, hq', hprim', ← Flash.hdr, ← getImageHeader_eq] at hbytes
    exact ⟨hval, hbytes⟩
  · intro hafter
    refine ⟨fun k => .inl (hp.unconfirmed_of_hdr ?_ ?_), fun h => absurd h hafter⟩
    · rw [Flash.hdr, hprim, Flash.hdr]
    · rw [Flash.hdr, hq, Flash.hdr]

theorem Pending.safe_iff_of_update (hu : f.update = q) (hb : (B.geom q).blocksize ≤ (B.geom .primary).size) :
    ConfirmSafe f q ↔
      Agree (f.part q) (f.part .primary) (crcBlocks (B.geom q)) (f.hdr .primary).length.toNat := by
  have hcopies := copiesBlocks_confirm hp.confirmed
  rw [hu] at hcopies
  simp only [CopiesBlocks, Nat.zero_add, Flash.over_zero] at hcopies
  obtain ⟨h12, h16⟩ := crcBlocks_bounds (B.geom q)
  have h128 := (B.geom q).header_le
  have hle := (B.geom q).blocksize_le
  have hle' := (B.geom q).erasesize_le
  have hprim := (B.geom .primary).header_le_size
  have herase : crcBlocks (B.geom q) ≤ (B.geom q).erasesize := by omega
  have hreach : crcBlocks (B.geom q) ≤ reach B .primary q := by
    simp only [reach]
    omega
  constructor
  · -- the cut behind the block with the CRC
    intro hs
    obtain ⟨m, hk, hm, hmax, hre⟩ := hcopies (8 / (B.geom q).blocksize + 1)
    obtain rfl : m = 8 / (B.geom q).blocksize + 1 := Nat.le_antisymm hk (hmax _ .refl herase hreach)
    have hcut : _ ∨ Recovers _ q := hs.cut (8 / (B.geom q).blocksize + 1)
    rw [hre, ← crcBlocks, hp.confirmed_over hreach h12] at hcut
    exact (hp.recovers_over_iff hreach h12).mp (hcut.resolve_left (by decide))
  · intro hrest
    have hcut : ∀ m, m * (B.geom q).blocksize ≤ reach B .primary q → 8 / (B.geom q).blocksize + 1 ≤ m →
        Recovers (f.over q (f.part .primary) (m * (B.geom q).blocksize)) q := by
      intro m hm hk
      have hle : crcBlocks (B.geom q) ≤ m * (B.geom q).blocksize := Nat.mul_le_mul_right _ hk
      exact (hp.recovers_over_iff hm (by omega)).mpr (hrest.mono hle .refl)
    refine ⟨fun k => ?_, fun _ => ?_⟩
    · obtain ⟨m, -, hm, -, hre⟩ := hcopies k
      simp only [hre]
      rcases Nat.lt_or_ge (8 / (B.geom q).blocksize) m with hlt | hge
      · exact .inr (hcut m hm hlt)
      · refine .inl (hp.unconfirmed_over hm ?_)
        calc m * (B.geom q).blocksize ≤ 8 / (B.geom q).blocksize * (B.geom q).blocksize :=
              Nat.mul_le_mul_right _ hge
          _ ≤ 8 := Nat.div_mul_le_self _ _
    · obtain ⟨m, -, hm, hmax, hre⟩ := hcopies ((nxbootConfirm f).2.length + (8 / (B.geom q).blocksize + 1))
      rw [take_of_length_le (Nat.le_add_right _ _)] at hre
      rw [hre]
      exact hcut m hm (hmax _ (Nat.le_add_left _ _) herase hreach)

end

/-- **When a cut confirmation is harmless.** It is exactly where `nxboot_confirm` writes to the slot that the image
points to, and the image is already there behind the blocks with the CRC; or where it does not, and the slot is not as
an update leaves it. -/
theorem confirm_safe_iff {f : Flash B} {q : Slot} (hp : Pending f q) :
    ConfirmSafe f q ↔
      if (nxbootGetState f).update = q ∧ (B.geom q).blocksize ≤ (B.geom .primary).size then
        Agree (f.part q) (f.part .primary) (crcBlocks (B.geom q)) (getImageHeader f .primary).length.toNat
      else ¬ AfterUpdate f q := by
  rw [nxbootGetState_update, getImageHeader_eq]
  split
  · next h => exact hp.safe_iff_of_update h.1 h.2
  · next h =>
    have hcopies := copiesBlocks_confirm hp.confirmed
    simp only [CopiesBlocks, Nat.zero_add, Flash.over_zero] at hcopies
    refine hp.safe_iff_of_part (fun k => ?_) fun k => ?_
    · obtain ⟨m, -, hm, -, hre⟩ := hcopies k
      rw [hre]
      by_cases hu : f.update = q
      · -- not even a block can be read
        have hb : (B.geom .primary).size < (B.geom q).blocksize := Nat.lt_of_not_le fun hb => h ⟨hu, hb⟩
        obtain rfl : m = 0 := by
          by_contra h0
          have := Nat.mul_le_mul_right (B.geom f.update).blocksize (Nat.pos_of_ne_zero h0)
          rw [hu] at this hm
          simp only [reach] at hm
          omega
        rw [Nat.zero_mul, Flash.over_zero]
      · exact f.part_over_of_ne _ (Ne.symm hu)
    · obtain ⟨m, -, -, -, hre⟩ := hcopies k
      rw [hre]
      exact f.part_over_of_ne _ (update_ne_primary f).symm

theorem afterUpdate_perform {f : Flash B} {check : Bool} {cut : Option Nat}
    (herase : (upTo cut (nxbootPerformUpdate f check).2).any FlashOp.isErase = true)
    (hlen : 16 ≤ (f.hdr f.update).length) :
    AfterUpdate (replay FlashOp.apply f (upTo cut (nxbootPerformUpdate f check).2)) f.update := by
  have hp := performs_upTo f check cut
  generalize replay FlashOp.apply f (upTo cut (nxbootPerformUpdate f check).2) = f' at hp ⊢
  generalize upTo cut (nxbootPerformUpdate f check).2 = ops at hp herase
  cases hp with
  | idle => cases herase
  | revert _ _ _ _ _ _ _ hw => rw [any_isErase_of_writes hw] at herase; cases herase
  | create _ _ _ _ _ _ _ hw => rw [any_isErase_of_writes hw] at herase; cases herase
  | install _ _ h₁ _ _ _ _ _ hw =>
    rw [any_append, any_isErase_of_writes h₁.writes, any_isErase_of_writes hw] at herase
    cases herase
  | @erase f₁ c u _ _ h₁ _ hn' _ _ =>
    have hprim : Slot.primary ≠ f.update := (update_ne_primary f).symm
    have hsize : (f.hdr f.update).length ≤ copySize B f.update .primary (f.hdr f.update).length := by
      simp only [copySize]
      omega
    refine ⟨Flash.agree_erase _ _, ?_⟩
    rw [getImageHeader_eq, Flash.hdr_erase_of_ne _ hprim, length_over hn' (by omega), h₁.hdr_update]
    intro i hi hi'
    -- behind the first sector the slot is as it was, and so is its copy
    rw [Flash.erase_eq_over, Flash.getElem?_over _ _ _ (by simp) (B.geom f.update).erasesize_le, if_neg (by omega),
      Flash.part_over_of_ne _ _ hprim, Flash.part_over_of_ne _ _ hprim.symm]
    have h128 := (B.geom f.update).header_le
    exact (agree_over_src hn' i (by omega) (by omega)).symm

/-- Where a write block is an erase sector, a confirmation of what an update has installed is safe against cuts, as soon
as the update has erased the slot, and leaves the recovery, if that slot is still the one for updates. -/
theorem confirm_safe_of_update {f f' : Flash B} {check : Bool} {cut : Option Nat}
    (hf' : f' = replay FlashOp.apply f (upTo cut (nxbootPerformUpdate f check).2))
    (herase : (upTo cut (nxbootPerformUpdate f check).2).any FlashOp.isErase = true)
    (hlen : 16 ≤ (f.hdr f.update).length) (hu : f'.update = f.update) (hp : Pending f' f.update)
    (hsector : (B.geom f.update).blocksize = (B.geom f.update).erasesize)
    (hsize : (B.geom f.update).erasesize ≤ (B.geom .primary).size) :
    ConfirmSafe f' f.update ∧ Recovers (replay FlashOp.apply f' (nxbootConfirm f').2) f.update := by
  have hle : (B.geom f.update).erasesize ≤ crcBlocks (B.geom f.update) := by
    rw [crcBlocks, hsector]
    exact Nat.le_mul_of_pos_left _ (Nat.succ_pos _)
  have hafter : AfterUpdate f' f.update := hf' ▸ afterUpdate_perform herase hlen
  have hrest : Agree .. := hafter.rest
  rw [getImageHeader_eq] at hrest
  have hsafe := (hp.safe_iff_of_update hu (hsector ▸ hsize)).mpr (hrest.mono hle .refl)
  exact ⟨hsafe, hsafe.complete hafter⟩

def updated (k : Nat) (hk : 2 ≤ k ∧ k ≤ 7) : Flash (Board.uniform (sectors 2 k sectors_two hk) false) :=
  (replay step (device k hk) [.perform false none, .upload imageB 140, .perform false none]).flash

theorem blocks_seven : 2 ≤ 7 ∧ 7 ≤ 7 := by decide

def uploaded := (replay step (device 7 blocks_seven) [.perform false none, .upload imageB 140]).flash

theorem confirm_safe_of_update_uploaded :
    ConfirmSafe (replay FlashOp.apply uploaded (upTo none (nxbootPerformUpdate uploaded false).2)) uploaded.update :=
  And.left <| confirm_safe_of_update rfl (by decide +kernel) (by decide +kernel) (by decide +kernel) (by decide +kernel)
    (by decide +kernel) (by decide +kernel)

theorem confirm_safe_sector : ConfirmSafe (updated 7 (by decide)) .secondary := by
  refine (confirm_safe_iff (by decide +kernel)).mpr ?_
  rw [if_pos (by decide +kernel)]
  decide +kernel

/-- The first of several blocks to the sector confirms the image, and the recovery is not there. -/
theorem confirm_cut_early :
    Pending (updated 4 (by decide)) .secondary ∧ ¬ ConfirmSafe (updated 4 (by decide)) .secondary := by
  refine ⟨by decide +kernel, fun h => ?_⟩
  have hcut : (nxbootGetState (replay FlashOp.apply (updated 4 (by decide))
        ((nxbootConfirm (updated 4 (by decide))).2.take 1))).primaryConfirmed = true ∧
      validateImage (replay FlashOp.apply (updated 4 (by decide))
        ((nxbootConfirm (updated 4 (by decide))).2.take 1)) .secondary = false := by
    decide +kernel
  rcases h.cut 1 with h | h
  · rw [hcut.1] at h
    cases h
  · have := h.valid
    rw [hcut.2] at this
    cases this

end NuttxApps.Nxboot
