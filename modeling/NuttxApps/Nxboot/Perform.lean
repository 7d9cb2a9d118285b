import NuttxApps.Nxboot.Copy

/-!
# The steps of an update

What `nxboot_get_state` decides, in terms of the headers (`nextBoot_update_iff`, `nextBoot_revert_iff`), and everything
a cut or complete `nxboot_perform_update` can leave of the flash (`performs_take`).
-/

namespace NuttxApps.Nxboot

open Bytes Replay
open List hiding le

variable {B : Board} {m : Nat}

theorem div_of_isInternalMagic (hm : m < 2 ^ 32) (h : isInternalMagic m = true) : m / 16 = 0xaca0abb := by
  have h₁ : (m &&& 0xfffffff0) >>> 4 = headerMagicInt >>> 4 := congrArg (· >>> 4) (beq_iff_eq.mp h)
  rw [Nat.shiftRight_and_distrib, show 0xfffffff0 >>> 4 = 2 ^ 28 - 1 from rfl, Nat.and_two_pow_sub_one_eq_mod,
    Nat.shiftRight_eq_div_pow, show headerMagicInt >>> 4 = 0xaca0abb from rfl] at h₁
  omega

variable (f : Flash B) (s : Slot)

theorem Flash.magic_lt : (f.hdr s).magic < 2 ^ 32 := field_lt _ 0 4

theorem isInternalMagic_or : isInternalMagic (headerMagicInt ||| s.num) = true := by
  cases s <;> decide

theorem recoveryPointer_or : recoveryPointer (headerMagicInt ||| s.num) = s.num := by
  cases s <;> decide

theorem or_lt : headerMagicInt ||| s.num < 2 ^ 32 := by
  cases s <;> decide

theorem ne_headerMagic_of_isInternalMagic (h : isInternalMagic m = true) : m ≠ headerMagic := by
  rintro rfl
  exact absurd h (by decide)

theorem flipMagic_update (state : NxbootState) :
    flipMagic headerMagic state true = headerMagicInt ||| state.update.num := by
  rw [flipMagic, if_pos rfl, if_neg (by decide)]

def Flash.update : Slot := selectUpdate (f.hdr .primary) (f.hdr .secondary) (f.hdr .tertiary)

def Flash.recovery : Slot := recoveryOf f.update

def Flash.confirmed : Bool := isConfirmed (f.hdr .primary) (f.hdr .secondary) (f.hdr .tertiary)

def Flash.recoveryPresent : Bool := (f.hdr .primary).crc == (f.hdr f.recovery).crc

section

variable (f : Flash B)

theorem nxbootGetState_update : (nxbootGetState f).update = f.update := by
  simp only [nxbootGetState, getImageHeader_eq, Flash.update]

theorem nxbootGetState_recovery : (nxbootGetState f).recovery = f.recovery := by
  simp only [nxbootGetState, getImageHeader_eq, Flash.update, Flash.recovery]

theorem nxbootGetState_recoveryValid : (nxbootGetState f).recoveryValid = validateImage f f.recovery := by
  simp only [nxbootGetState, getImageHeader_eq, Flash.update, Flash.recovery]

theorem nxbootGetState_recoveryPresent : (nxbootGetState f).recoveryPresent = f.recoveryPresent := by
  simp only [nxbootGetState, getImageHeader_eq, Flash.update, Flash.recovery, Flash.recoveryPresent]

theorem nxbootGetState_primaryConfirmed : (nxbootGetState f).primaryConfirmed = f.confirmed := by
  simp only [nxbootGetState, getImageHeader_eq, Flash.confirmed]

theorem update_recovery :
    f.update = .secondary ∧ f.recovery = .tertiary ∨ f.update = .tertiary ∧ f.recovery = .secondary := by
  have hu : f.update = .secondary ∨ f.update = .tertiary := by
    rw [Flash.update, selectUpdate]
    repeat' split
    all_goals simp
  rcases hu with hu | hu
  · exact .inl ⟨hu, by rw [Flash.recovery, hu]; rfl⟩
  · exact .inr ⟨hu, by rw [Flash.recovery, hu]; rfl⟩

theorem update_ne_primary : f.update ≠ .primary := by
  rcases update_recovery f with ⟨hu, -⟩ | ⟨hu, -⟩ <;> rw [hu] <;> decide

theorem recovery_ne_primary : f.recovery ≠ .primary := by
  rcases update_recovery f with ⟨-, hr⟩ | ⟨-, hr⟩ <;> rw [hr] <;> decide

theorem update_ne_recovery : f.update ≠ f.recovery := by
  rcases update_recovery f with ⟨hu, hr⟩ | ⟨hu, hr⟩ <;> rw [hu, hr] <;> decide

theorem eq_update_or_recovery {q : Slot} (hq : q ≠ .primary) : q = f.update ∨ q = f.recovery := by
  rcases update_recovery f with ⟨hu, hr⟩ | ⟨hu, hr⟩ <;> rw [hu, hr] <;> cases q <;> simp_all

theorem confirmed_eq {q : Slot} (hint : isInternalMagic (f.hdr .primary).magic = true) (hq : q ≠ .primary)
    (hptr : recoveryPointer (f.hdr .primary).magic = q.num) :
    f.confirmed = ((f.hdr .primary).crc == (f.hdr q).crc) := by
  have hne : ((f.hdr .primary).magic == headerMagic) = false := by
    simpa using ne_headerMagic_of_isInternalMagic hint
  rw [Flash.confirmed, isConfirmed, hne, hint, hptr]
  cases q with
  | primary => exact absurd rfl hq
  | secondary => rfl
  | tertiary => rfl

theorem confirmed_of_headerMagic (h : (f.hdr .primary).magic = headerMagic) : f.confirmed = true := by
  rw [Flash.confirmed, isConfirmed, if_pos (by simpa using h)]

theorem update_eq_tertiary (ht : (f.hdr .tertiary).magic = headerMagic) : f.update = .tertiary := by
  rw [Flash.update, selectUpdate, if_pos (by simpa using ht)]

theorem update_eq_secondary (ht : (f.hdr .tertiary).magic ≠ headerMagic)
    (hs : isInternalMagic (f.hdr .secondary).magic = false) : f.update = .secondary := by
  rw [Flash.update, selectUpdate, if_neg (by simpa using ht), hs, Bool.false_and]
  rfl

theorem magic_update_of_recovery (h : (f.hdr f.recovery).magic = headerMagic) :
    (f.hdr f.update).magic = headerMagic := by
  rcases update_recovery f with ⟨hu, hr⟩ | ⟨hu, hr⟩ <;> rw [hr] at h
  · rw [update_eq_tertiary f h] at hu
    cases hu
  · by_contra ht
    rw [hu] at ht
    rw [update_eq_secondary f ht (by rw [h]; decide)] at hu
    cases hu

variable {f} in
theorem update_congr {f' : Flash B} (hs : (f'.hdr .secondary).magic = (f.hdr .secondary).magic)
    (ht : (f'.hdr .tertiary).magic = (f.hdr .tertiary).magic)
    (hboth : ¬ (isInternalMagic (f.hdr .secondary).magic = true ∧ isInternalMagic (f.hdr .tertiary).magic = true)) :
    f'.update = f.update := by
  rw [← Bool.and_eq_true, Bool.not_eq_true] at hboth
  simp only [Flash.update, selectUpdate, hs, ht, hboth, Bool.false_eq_true, if_false]

theorem nextBoot_eq :
    (nxbootGetState f).nextBoot =
      getUpdateType f { nxbootGetState f with nextBoot := .none } f.update (f.hdr .primary) (f.hdr f.update)
        (f.hdr f.recovery) := by
  simp only [nxbootGetState, getImageHeader_eq, Flash.update, Flash.recovery]

theorem getUpdateType_update_iff {state : NxbootState} {update : Slot} {ph uh rh : ImgHeader} :
    getUpdateType f state update ph uh rh = .update ↔
      uh.magic = headerMagic ∧ validateImage f update = true ∧
        (ph.crc ≠ uh.crc ∨ compareVersions B ph.imgVersion uh.imgVersion = false ∨
          validateImage f .primary = false) := by
  rw [getUpdateType]
  split
  · next h => simpa [and_assoc, or_assoc] using h
  · next h =>
    rw [ite_eq_iff]
    simpa [and_assoc, or_assoc] using h

theorem nextBoot_update_iff :
    (nxbootGetState f).nextBoot = .update ↔
      (f.hdr f.update).magic = headerMagic ∧ validateImage f f.update = true ∧
        ((f.hdr .primary).crc ≠ (f.hdr f.update).crc ∨
          compareVersions B (f.hdr .primary).imgVersion (f.hdr f.update).imgVersion = false ∨
          validateImage f .primary = false) := by
  rw [nextBoot_eq, getUpdateType_update_iff]

theorem nextBoot_revert_iff :
    (nxbootGetState f).nextBoot = .revert ↔
      (nxbootGetState f).nextBoot ≠ .update ∧ isInternalMagic (f.hdr f.recovery).magic = true ∧
        validateImage f f.recovery = true ∧
        (isInternalMagic (f.hdr .primary).magic = true ∧ f.confirmed = false ∨
          validateImage f .primary = false) := by
  rw [nextBoot_eq, getUpdateType, nxbootGetState_recoveryValid, nxbootGetState_primaryConfirmed]
  split
  · simp
  · split
    · next h => simpa [and_assoc] using h
    · next h => simpa [and_assoc] using h

end

def Flash.creates : Bool :=
  (!f.recoveryPresent || !validateImage f f.recovery) && f.confirmed && validateImage f .primary

def Flash.createMagic : Nat :=
  if isInternalMagic (f.hdr .primary).magic then headerMagic else headerMagicInt

def Flash.installMagic : Nat := headerMagicInt ||| f.update.num

def Flash.erase (f : Flash B) (s : Slot) : Flash B := FlashOp.apply f (.erase s)

theorem Flash.hdr_erase_of_ne {s t : Slot} (h : t ≠ s) : (f.erase s).hdr t = f.hdr t := by
  rw [Flash.hdr, Flash.erase, FlashOp.apply, Flash.part_write_of_ne _ h, Flash.hdr]

theorem Flash.erase_eq_over :
    f.erase s = f.over s (replicate (B.geom s).erasesize B.erased) (B.geom s).erasesize := by
  rw [Flash.over, take_of_length_le (by simp)]
  rfl

theorem Flash.agree_erase :
    Agree ((f.erase s).part s) (replicate (B.geom s).erasesize B.erased) 0 (B.geom s).erasesize := by
  rw [f.erase_eq_over]
  exact f.agree_over s _ (by simp) (B.geom s).erasesize_le

theorem field_erase {off w : Nat} (h : off + w ≤ 128) :
    field ((f.erase s).part s) off w = le (replicate w B.erased) := by
  have h128 := (B.geom s).header_le
  rw [field_congr ((f.agree_erase s).mono (Nat.zero_le _) (by omega)), field, drop_replicate,
    take_replicate, Nat.min_eq_left (by omega)]

theorem magic_replicate (b : UInt8) :
    le (replicate 4 b) ≠ headerMagic ∧ isInternalMagic (le (replicate 4 b)) = false := by
  have hbyte := b.toNat_lt
  have hle : le (replicate 4 b) = 0x1010101 * b.toNat := by
    simp only [replicate, le]
    omega
  rw [hle]
  refine ⟨by rw [headerMagic]; omega, ?_⟩
  by_contra h
  have := div_of_isInternalMagic (m := 0x1010101 * b.toNat) (by omega) (by simpa using h)
  omega

theorem magic_erase : ((f.erase s).hdr s).magic ≠ headerMagic ∧ isInternalMagic ((f.erase s).hdr s).magic = false := by
  have hmagic : ((f.erase s).hdr s).magic = _ := field_erase f s (by decide : 0 + 4 ≤ 128)
  rw [hmagic]
  exact magic_replicate _

section

variable (f : Flash B) {check : Bool}

theorem performUpdate_slots :
    (if (nxbootGetState f).update = .secondary then Slot.secondary else .tertiary) = f.update ∧
      (if (nxbootGetState f).update = .secondary then Slot.tertiary else .secondary) = f.recovery := by
  rw [nxbootGetState_update]
  rcases update_recovery f with ⟨hu, hr⟩ | ⟨hu, hr⟩ <;> rw [hu, hr] <;> decide

theorem ops_none (h : (nxbootGetState f).nextBoot = .none) : (nxbootPerformUpdate f check).2 = [] := by
  simp [nxbootPerformUpdate, h]

theorem ops_check (h : (validateImage f .primary && check) = true) : (nxbootPerformUpdate f check).2 = [] := by
  simp only [Bool.and_eq_true] at h
  simp [nxbootPerformUpdate, performUpdate, h.1, h.2]

theorem copyPartition_eq (src dst : Slot) (state : NxbootState) (update : Bool) :
    copyPartition f src dst state update =
      copyImage f src dst (f.hdr src).length (flipMagic (f.hdr src).magic state update) := by
  rw [copyPartition, getImageHeader_eq]

section

variable (h : (nxbootGetState f).nextBoot = .revert) (hc : (validateImage f .primary && check) = false)

include h hc

theorem ops_revert :
    (nxbootPerformUpdate f check).2 =
      (copyImage f f.recovery .primary (f.hdr f.recovery).length headerMagic).2 := by
  obtain ⟨-, hint, hval, -⟩ := (nextBoot_revert_iff f).mp h
  have hflip : flipMagic (f.hdr f.recovery).magic (nxbootGetState f) false = headerMagic := by
    simp only [flipMagic, hint, if_true, Bool.false_eq_true, if_false]
  have hcond : ((nxbootGetState f).nextBoot = .revert && (!check || !validateImage f .primary)) = true := by
    cases check <;> simp_all
  simp only [nxbootPerformUpdate, performUpdate]
  rw [if_pos (by rw [h]; decide), if_pos hcond, if_pos (by rw [nxbootGetState_recoveryValid, hval]),
    (performUpdate_slots f).2, copyPartition_eq, hflip]

theorem replay_revert (hsize : copySize B f.recovery .primary (f.hdr f.recovery).length ≤ reach B f.recovery .primary) :
    replay FlashOp.apply f (nxbootPerformUpdate f check).2 =
      f.over .primary (patched f f.recovery headerMagic)
        (copySize B f.recovery .primary (f.hdr f.recovery).length) := by
  have hfit : Fits B f.recovery .primary (f.hdr f.recovery).length := by
    simp only [copySize, reach] at hsize
    refine ⟨by omega, ?_⟩
    simp only [reach]
    omega
  have hcop : Copies f .primary (patched f f.recovery headerMagic) 0 _ _ _
      (copyImage f f.recovery .primary (f.hdr f.recovery).length headerMagic) := copies_copyImage hfit
  have hre := (hcop.done (hcop.ok (by rw [zero_add]; exact hsize))).2
  rw [Flash.over_zero, zero_add] at hre
  rw [ops_revert f h hc, hre]

end

def Flash.create : Bool × List FlashOp :=
  copyImage f .primary f.recovery (f.hdr .primary).length f.createMagic

theorem ops_update (h : (nxbootGetState f).nextBoot = .update) (hc : (validateImage f .primary && check) = false) :
    (nxbootPerformUpdate f check).2 =
      if f.creates then
        if validateImage (replay FlashOp.apply f f.create.2) f.recovery then
          f.create.2 ++ updatePrimary (replay FlashOp.apply f f.create.2) (nxbootGetState f) f.update
        else f.create.2
      else updatePrimary f (nxbootGetState f) f.update := by
  obtain ⟨hu, hr⟩ := performUpdate_slots f
  have hflip : flipMagic (f.hdr .primary).magic (nxbootGetState f) false = f.createMagic := rfl
  have hcreates : ((!(nxbootGetState f).recoveryPresent || !(nxbootGetState f).recoveryValid) &&
      (nxbootGetState f).primaryConfirmed && validateImage f .primary) = f.creates := by
    rw [nxbootGetState_recoveryPresent, nxbootGetState_recoveryValid, nxbootGetState_primaryConfirmed]
    rfl
  simp only [nxbootPerformUpdate, performUpdate]
  rw [if_pos (by rw [h]; decide), if_neg (by rw [h]; simp), if_neg (by rw [hc]; decide), hcreates, hu, hr,
    copyPartition_eq, hflip, ← Flash.create]
  refine if_congr Iff.rfl ?_ rfl
  by_cases hv : validateImage (replay FlashOp.apply f f.create.2) f.recovery = true
  · rw [if_neg (by simp [hv]), if_pos hv]
  · rw [if_pos (by simp [hv]), if_neg hv]

def Flash.install (f f₁ : Flash B) : Bool × List FlashOp :=
  copyImage f₁ f.update .primary (f₁.hdr f.update).length f.installMagic

theorem updatePrimary_eq {f₁ : Flash B} (hmagic : (f₁.hdr f.update).magic = headerMagic)
    (hval : validateImage f₁ f.update = true) :
    updatePrimary f₁ (nxbootGetState f) f.update =
      if (f.install f₁).1 then (f.install f₁).2 ++ [.erase f.update] else (f.install f₁).2 := by
  have hflip : flipMagic (f₁.hdr f.update).magic (nxbootGetState f) true = f.installMagic := by
    rw [hmagic, flipMagic_update, nxbootGetState_update, Flash.installMagic]
  rw [updatePrimary, if_pos hval, copyPartition_eq, hflip, ← Flash.install]
  rcases f.install f₁ with ⟨ret, ops⟩
  rfl

end

inductive Created (f : Flash B) : List FlashOp → Flash B → Prop
  | skip : Created f [] f
  | copy {c : List FlashOp} {n : Nat} (hcreates : f.creates = true)
      (hfit : Fits B .primary f.recovery (f.hdr .primary).length)
      (hn : (B.geom f.recovery).blocksize ≤ n) (hn' : n ≤ reach B .primary f.recovery)
      (hc : c ≠ []) (hw : ∀ op ∈ c, op.writes f.recovery = true)
      (hval : validateImage (f.over f.recovery (patched f .primary f.createMagic) n) f.recovery = true) :
      Created f c (f.over f.recovery (patched f .primary f.createMagic) n)

/-- What `nxboot_perform_update` leaves, behind the operations it made. With `d` it was not cut. -/
inductive Performs (f : Flash B) (check d : Bool) : List FlashOp → Flash B → Prop
  /-- nothing is written -/
  | idle
      (hd : d = true → (nxbootGetState f).nextBoot = .none ∨ validateImage f .primary = true ∨
        ((nxbootGetState f).nextBoot = .revert ∧ ¬ Fits B f.recovery .primary (f.hdr f.recovery).length) ∨
        ((nxbootGetState f).nextBoot = .update ∧ ¬ Fits B f.update .primary (f.hdr f.update).length)) :
      Performs f check d [] f
  /-- the first `n` bytes of the recovery are copied back -/
  | revert {ops : List FlashOp} {n : Nat} (hnext : (nxbootGetState f).nextBoot = .revert)
      (hcheck : check = true → validateImage f .primary = false)
      (hfit : Fits B f.recovery .primary (f.hdr f.recovery).length)
      (hn : (B.geom .primary).blocksize ≤ n) (hn' : n ≤ reach B f.recovery .primary)
      (hd : d = true → copySize B f.recovery .primary (f.hdr f.recovery).length ≤ reach B f.recovery .primary →
        n = copySize B f.recovery .primary (f.hdr f.recovery).length)
      (hops : ops ≠ []) (hw : ∀ op ∈ ops, op.writes .primary = true) :
      Performs f check d ops (f.over .primary (patched f f.recovery headerMagic) n)
  /-- the first `n` bytes of the primary image are saved as recovery -/
  | create {c : List FlashOp} {n : Nat} (hnext : (nxbootGetState f).nextBoot = .update)
      (hcheck : check = true → validateImage f .primary = false) (hcreates : f.creates = true)
      (hfit : Fits B .primary f.recovery (f.hdr .primary).length)
      (hn : (B.geom f.recovery).blocksize ≤ n) (hn' : n ≤ reach B .primary f.recovery)
      (hc : c ≠ []) (hw : ∀ op ∈ c, op.writes f.recovery = true) :
      Performs f check d c (f.over f.recovery (patched f .primary f.createMagic) n)
  /-- the first `n` bytes of the update are installed -/
  | install {f₁ : Flash B} {c u : List FlashOp} {n : Nat} (hnext : (nxbootGetState f).nextBoot = .update)
      (hcheck : check = true → validateImage f .primary = false) (h₁ : Created f c f₁)
      (hfit : Fits B f.update .primary (f.hdr f.update).length)
      (hn : (B.geom .primary).blocksize ≤ n) (hn' : n ≤ reach B f.update .primary)
      (hd : d = true → reach B f.update .primary < copySize B f.update .primary (f.hdr f.update).length)
      (hu : u ≠ []) (hw : ∀ op ∈ u, op.writes .primary = true) :
      Performs f check d (c ++ u) (f₁.over .primary (patched f₁ f.update f.installMagic) n)
  /-- the update is installed and its first sector erased -/
  | erase {f₁ : Flash B} {c u : List FlashOp} (hnext : (nxbootGetState f).nextBoot = .update)
      (hcheck : check = true → validateImage f .primary = false) (h₁ : Created f c f₁)
      (hfit : Fits B f.update .primary (f.hdr f.update).length)
      (hn' : copySize B f.update .primary (f.hdr f.update).length ≤ reach B f.update .primary)
      (hu : u ≠ []) (hw : ∀ op ∈ u, op.writes .primary = true) :
      Performs f check d (c ++ (u ++ [.erase f.update]))
        ((f₁.over .primary (patched f₁ f.update f.installMagic)
          (copySize B f.update .primary (f.hdr f.update).length)).erase f.update)

variable {f : Flash B} {check d : Bool}

section

variable {c : List FlashOp} {f₁ : Flash B} (h : Created f c f₁)

include h

theorem Created.part_update : f₁.part f.update = f.part f.update := by
  cases h with
  | skip => rfl
  | copy => exact f.part_over_of_ne _ (update_ne_recovery f)

theorem Created.writes : ∀ op ∈ c, op.writes f.recovery = true := by
  cases h with
  | skip => simp
  | copy _ _ _ _ _ hw _ => exact hw

theorem Created.hdr_update : f₁.hdr f.update = f.hdr f.update := by
  rw [Flash.hdr, h.part_update, Flash.hdr]

theorem Created.validateImage_update : validateImage f₁ f.update = validateImage f f.update := by
  rw [validateImage_eq, h.part_update, ← validateImage_eq]

end

theorem created_create (hcreates : f.creates = true)
    (hval : validateImage (replay FlashOp.apply f f.create.2) f.recovery = true) :
    Created f f.create.2 (replay FlashOp.apply f f.create.2) := by
  have htake := copyImage_take f .primary f.recovery (f.hdr .primary).length f.createMagic (d := true)
    (k := f.create.2.length) fun _ => take_length
  rw [← Flash.create, take_length] at htake
  rcases htake with ⟨hnil, -⟩ | ⟨hfit, hops, hw, n, hn, hn', -, hre⟩
  · rw [hnil, replay_nil]
    exact .skip
  · rw [hre] at hval ⊢
    exact .copy hcreates hfit hn hn' hops hw hval

section

variable (hnext : (nxbootGetState f).nextBoot = .update) (hcheck : check = true → validateImage f .primary = false)
  {c : List FlashOp} {f₁ : Flash B}

include hnext hcheck

theorem Created.performs (h : Created f c f₁)
    (hd : d = true → validateImage f .primary = true ∨ ¬ Fits B f.update .primary (f.hdr f.update).length) :
    Performs f check d c f₁ := by
  cases h with
  | skip => exact .idle fun h => (hd h).elim (fun h => .inr (.inl h)) fun h => .inr (.inr (.inr ⟨hnext, h⟩))
  | copy hcreates hfit hn hn' hc hw _ => exact .create hnext hcheck hcreates hfit hn hn' hc hw

theorem performs_updatePrimary (h₁ : Created f c f₁) {ops : List FlashOp} {k : Nat}
    (hops : updatePrimary f₁ (nxbootGetState f) f.update = ops) (hd : d = true → ops.take k = ops) :
    Performs f check d (c ++ ops.take k) (replay FlashOp.apply f₁ (ops.take k)) := by
  obtain ⟨hmagic, hval, -⟩ := (nextBoot_update_iff f).mp hnext
  rw [← h₁.hdr_update] at hmagic
  rw [← h₁.validateImage_update] at hval
  have hinst : f.install f₁ = copyImage f₁ f.update .primary (f.hdr f.update).length f.installMagic := by
    rw [Flash.install, h₁.hdr_update]
  obtain ⟨r, hr⟩ : ∃ r, copyImage f₁ f.update .primary (f.hdr f.update).length f.installMagic = r := ⟨_, rfl⟩
  have hcopies : Fits B f.update .primary (f.hdr f.update).length → Copies f₁ .primary _ 0 _ _ _ r :=
    fun hfit => hr ▸ copies_copyImage hfit
  rw [updatePrimary_eq f hmagic hval, hinst, hr] at hops
  subst hops
  -- a prefix of the copy alone, complete only where the copy fails
  have hin : ∀ j, (d = true → r.1 = false ∧ r.2.take j = r.2) →
      Performs f check d (c ++ r.2.take j) (replay FlashOp.apply f₁ (r.2.take j)) := by
    intro j hj
    have htake := copyImage_take f₁ f.update .primary (f.hdr f.update).length f.installMagic (d := d) (k := j)
    rw [hr] at htake
    rcases htake (fun h => (hj h).2) with ⟨hnil, hfit⟩ | ⟨hfit, hops, hw, n, hn, hn', -, hre⟩
    · rw [hnil, append_nil, replay_nil]
      exact Created.performs hnext hcheck h₁ fun h => .inr (hfit h)
    · rw [hre]
      refine .install hnext hcheck h₁ hfit hn hn' (fun h => ?_) hops hw
      by_contra hle
      exact absurd ((hcopies hfit).ok (by omega)) (by rw [(hj h).1]; decide)
  by_cases hret : r.1 = true
  · rw [if_pos hret] at hd ⊢
    have hfit : Fits B f.update .primary (f.hdr f.update).length := by
      by_contra hfit
      rw [← hr, copyImage_fail hfit] at hret
      cases hret
    rcases Nat.lt_or_ge r.2.length k with hk | hk
    · obtain ⟨hsz, hre⟩ := (hcopies hfit).done hret
      rw [Flash.over_zero, Nat.zero_add] at hre
      rw [take_of_length_le (by simp; omega), replay_append, hre]
      exact .erase hnext hcheck h₁ hfit (by omega) (hr ▸ copyImage_ne_nil hfit) (hcopies hfit).writes
    · rw [take_append_of_le_length hk] at hd ⊢
      refine hin k fun h => absurd (congrArg List.length (hd h)) ?_
      simp
      omega
  · rw [if_neg hret] at hd ⊢
    exact hin k fun h => ⟨by simpa using hret, hd h⟩

theorem performs_create (hcreates : f.creates = true) (k : Nat) :
    Performs f check d (f.create.2.take k) (replay FlashOp.apply f (f.create.2.take k)) := by
  have hval : validateImage f .primary = true := by
    simp only [Flash.creates, Bool.and_eq_true] at hcreates
    exact hcreates.2
  have htake := copyImage_take f .primary f.recovery (f.hdr .primary).length f.createMagic (d := false) (k := k)
    (by simp)
  rw [← Flash.create] at htake
  rcases htake with ⟨hnil, -⟩ | ⟨hfit, hops, hw, n, hn, hn', -, hre⟩
  · rw [hnil, replay_nil]
    exact .idle fun _ => .inr (.inl hval)
  · rw [hre]
    exact .create hnext hcheck hcreates hfit hn hn' hops hw

end

theorem performs_take (f : Flash B) (check : Bool) {d : Bool} {k : Nat}
    (hd : d = true → (nxbootPerformUpdate f check).2.take k = (nxbootPerformUpdate f check).2) :
    Performs f check d ((nxbootPerformUpdate f check).2.take k)
      (replay FlashOp.apply f ((nxbootPerformUpdate f check).2.take k)) := by
  by_cases hcv : (validateImage f .primary && check) = true
  · rw [ops_check f hcv, take_nil, replay_nil]
    rw [Bool.and_eq_true] at hcv
    exact .idle fun _ => .inr (.inl hcv.1)
  have hcheck : check = true → validateImage f .primary = false := by
    intro h
    simpa [h] using hcv
  rw [Bool.not_eq_true] at hcv
  cases hnext : (nxbootGetState f).nextBoot with
  | none =>
    rw [ops_none f hnext, take_nil, replay_nil]
    exact .idle fun _ => .inl hnext
  | revert =>
    rw [ops_revert f hnext hcv] at hd ⊢
    rcases copyImage_take f f.recovery .primary (f.hdr f.recovery).length headerMagic hd with
      ⟨hnil, hfit⟩ | ⟨hfit, hops, hw, n, hn, hn', hn'', hre⟩
    · rw [hnil, replay_nil]
      exact .idle fun h => .inr (.inr (.inl ⟨hnext, hfit h⟩))
    · rw [hre]
      exact .revert hnext hcheck hfit hn hn' hn'' hops hw
  | update =>
    rw [ops_update f hnext hcv] at hd ⊢
    split_ifs at hd ⊢ with hcreates hval
    · rcases Nat.le_total k f.create.2.length with hk | hk
      · rw [take_append_of_le_length hk]
        exact performs_create hnext hcheck hcreates k
      · rw [take_append, take_of_length_le hk] at hd ⊢
        rw [replay_append]
        exact performs_updatePrimary hnext hcheck (created_create hcreates hval) rfl
          fun h => append_cancel_left (hd h)
    · exact performs_create hnext hcheck hcreates k
    · exact performs_updatePrimary hnext hcheck .skip rfl hd

theorem nxbootConfirm_eq (h : f.confirmed = false) :
    nxbootConfirm f = copyLoop f .primary f.update (B.geom f.update).blocksize (B.geom f.update).erasesize 0
      (B.geom f.update).erasesize := by
  rw [nxbootConfirm, nxbootGetState_primaryConfirmed, h, if_neg (by decide), (performUpdate_slots f).1]

/-- Everything that `nxboot_confirm` can leave: the first bytes of the primary image, at least a block, over the update
slot. -/
theorem confirms_take (f : Flash B) (k : Nat) :
    (nxbootConfirm f).2.take k = [] ∨
      f.confirmed = false ∧ ∃ n, (B.geom f.update).blocksize ≤ n ∧ n ≤ reach B .primary f.update ∧
        replay FlashOp.apply f ((nxbootConfirm f).2.take k) =
          f.over f.update (patched f .primary (f.hdr .primary).magic) n := by
  rw [patched_self]
  by_cases hc : f.confirmed = true
  · left
    rw [nxbootConfirm, nxbootGetState_primaryConfirmed, hc]
    exact take_nil
  · rw [Bool.not_eq_true] at hc
    rw [nxbootConfirm_eq hc]
    have h4 := (B.geom f.update).four_le
    have hcop : Copies f f.update (f.part .primary) 0 (B.geom f.update).erasesize _ _
        (copyLoop f .primary f.update (B.geom f.update).blocksize (B.geom f.update).erasesize 0
          (B.geom f.update).erasesize) :=
      copies_copyLoop (f.length_part _) (by omega) .refl rfl (Nat.zero_le _)
    obtain ⟨n, hn, hn', hre⟩ := hcop.cut k
    rw [Flash.over_zero] at hre
    rcases hn with ⟨hnil, -⟩ | hn
    · exact .inl hnil
    · have hle := (B.geom f.update).blocksize_le
      exact .inr ⟨hc, n, by omega, hn', hre⟩

end NuttxApps.Nxboot
