import NuttxApps.Nxboot.Loader

/-!
# Copies between slots

What `copy_partition` and `nxboot_confirm` leave of a slot at any cut: the slot
overwritten with some first bytes of what is copied (`copies_copyLoop`,
`copies_copyImage`), at least a whole block where anything is written at all.
-/

namespace NuttxApps.Nxboot

open Bytes Replay
open List hiding le min max

variable {B : Board} (f : Flash B) {s : Slot} {buf : List UInt8} {off : Nat}

theorem flashPartitionWrite_some (h : buf.length + off ≤ (B.geom s).size) :
    flashPartitionWrite B s buf off = some (blockWrites s (B.geom s).blocksize buf.length off buf) :=
  if_neg (by omega)

theorem flashPartitionWrite_none (h : (B.geom s).size < buf.length + off) : flashPartitionWrite B s buf off = none :=
  if_pos h

def reach (B : Board) (src dst : Slot) : Nat := min (B.geom src).size (B.geom dst).size

/-- A log that overwrites the slot `dst`, which holds the first `off` bytes of `a`, with `remain` more of them: what any
cut leaves (nothing new, or at least `block` bytes), what success leaves, and when it succeeds. -/
structure Copies (f : Flash B) (dst : Slot) (a : List UInt8) (off remain block top : Nat)
    (r : Bool × List FlashOp) : Prop where
  cut : ∀ k, ∃ n, (r.2.take k = [] ∧ n = off ∨ off + block ≤ n) ∧ n ≤ top ∧
    replay FlashOp.apply (f.over dst a off) (r.2.take k) = f.over dst a n
  done : r.1 = true → off + remain ≤ top ∧ replay FlashOp.apply (f.over dst a off) r.2 = f.over dst a (off + remain)
  ok : off + remain ≤ top → r.1 = true
  writes : ∀ op ∈ r.2, op.writes dst = true

section

variable {f : Flash B} {src dst : Slot} {a : List UInt8} {off remain block top : Nat}

theorem Copies.finish (hoff : off ≤ top) : Copies f dst a off 0 block top (true, []) :=
  ⟨fun k => ⟨off, .inl ⟨take_nil, rfl⟩, hoff, by rw [take_nil, replay_nil]⟩, fun _ => ⟨hoff, rfl⟩,
    fun _ => rfl, by simp⟩

theorem Copies.fail (hoff : off ≤ top) (h : top < off + remain) : Copies f dst a off remain block top (false, []) :=
  ⟨fun k => ⟨off, .inl ⟨take_nil, rfl⟩, hoff, by rw [take_nil, replay_nil]⟩, by simp, by omega,
    by simp⟩

theorem Copies.step {l k : Nat} {r : Bool × List FlashOp} (hl : l ≤ remain) (htop : off + l ≤ top)
    (htop' : top ≤ a.length) (h : Copies f dst a (off + l) (remain - l) k top r) :
    Copies f dst a off remain (min (B.geom dst).blocksize l) top
      (r.1, blockWrites dst (B.geom dst).blocksize l off ((a.drop off).take l) ++ r.2) := by
  obtain ⟨hcut, hall⟩ := replay_blockWrites f dst a (b := (B.geom dst).blocksize) (n := off) (l := l)
    (by have := (B.geom dst).four_le; omega) (by omega) .refl
  refine ⟨fun k => ?_, fun hret => ?_, fun ht => h.ok (by omega), fun op hop => ?_⟩
  · rw [take_append, replay_append]
    rcases Nat.le_total k (blockWrites dst (B.geom dst).blocksize l off ((a.drop off).take l)).length with hk | hk
    · obtain ⟨n, hn, hn', hre⟩ := hcut k
      rw [Nat.sub_eq_zero_of_le hk, take_zero, append_nil, replay_nil, hre]
      exact ⟨n, hn, by omega, rfl⟩
    · obtain ⟨n, hn, hn', hre⟩ :=
        h.cut (k - (blockWrites dst (B.geom dst).blocksize l off ((a.drop off).take l)).length)
      rw [take_of_length_le hk, hall, hre]
      exact ⟨n, .inr (by omega), hn', rfl⟩
  · obtain ⟨ht, hre⟩ := h.done hret
    rw [replay_append, hall, hre]
    exact ⟨by omega, by congr 1; omega⟩
  · rcases mem_append.mp hop with hop | hop
    · exact writes_blockWrites op hop
    · exact h.writes op hop

theorem copies_copyLoop (hlen : a.length = (B.geom src).size) {b fuel : Nat} (hb : 0 < b) (hfuel : remain ≤ fuel)
    (ha : a.drop off = (f.part src).drop off) (hoff : off ≤ reach B src dst) :
    Copies f dst a off remain (min (B.geom dst).blocksize (min b remain)) (reach B src dst)
      (copyLoop f src dst b fuel off remain) := by
  induction fuel generalizing off remain with
  | zero =>
    obtain rfl : remain = 0 := by omega
    exact .finish hoff
  | succ fuel ih =>
    rcases Nat.eq_zero_or_pos remain with rfl | hpos
    · exact .finish hoff
    rcases Nat.lt_or_ge (B.geom src).size (min b remain + off) with hr | hr
    · -- the read leaves the source
      simp only [copyLoop, if_pos hpos, readsiz_eq, flashPartitionRead_none hr]
      exact .fail hoff (by simp only [reach]; omega)
    have hbuf : (((f.part src).drop off).take (min b remain)).length = min b remain := by
      rw [length_take, length_drop, f.length_part]
      omega
    rcases Nat.lt_or_ge (B.geom dst).size (min b remain + off) with hw | hw
    · -- the write leaves the destination
      simp only [copyLoop, if_pos hpos, readsiz_eq, flashPartitionRead_some hr,
        flashPartitionWrite_none (hbuf.symm ▸ hw)]
      exact .fail hoff (by simp only [reach]; omega)
    simp only [copyLoop, if_pos hpos, readsiz_eq, flashPartitionRead_some hr, flashPartitionWrite_some (hbuf.symm ▸ hw)]
    rw [hbuf, ← ha]
    have htop : off + min b remain ≤ reach B src dst := by simp only [reach]; omega
    refine .step (by omega) htop (by simp only [reach]; omega) (ih (by omega) ?_ htop)
    rw [← drop_drop, ha, drop_drop]

end

theorem four_le_copyBlock (B : Board) (src dst : Slot) : 4 ≤ copyBlock B src dst :=
  Nat.le_trans (B.geom src).four_le (Nat.le_max_left _ _)

/-- What `copy_partition` writes: the source with another magic. -/
def patched (src : Slot) (magic : Nat) : List UInt8 := leBytes 4 magic ++ (f.part src).drop 4

def copySize (B : Board) (src dst : Slot) (remain : Int) : Nat := max (copyBlock B src dst) remain.toNat

def Fits (B : Board) (src dst : Slot) (remain : Int) : Prop :=
  remain ≤ (B.geom dst).size ∧ copyBlock B src dst ≤ reach B src dst

section

variable {f : Flash B} {src dst : Slot} {magic : Nat} {remain : Int}

theorem length_patched : (patched f src magic).length = (B.geom src).size := by
  have := (B.geom src).header_le_size
  rw [patched, length_append, length_leBytes, length_drop, f.length_part]
  omega

theorem drop_patched {n : Nat} (h : 4 ≤ n) : (patched f src magic).drop n = (f.part src).drop n := by
  rw [patched, drop_append, length_leBytes, drop_drop, Nat.add_sub_cancel' h,
    drop_eq_nil_of_le (by rw [length_leBytes]; exact h), nil_append]

theorem take_patched {n : Nat} (h : 4 ≤ n) :
    leBytes 4 magic ++ (((f.part src).drop 0).take n).drop 4 = ((patched f src magic).drop 0).take n := by
  rw [patched, drop_zero, drop_zero, take_append, length_leBytes, drop_take,
    take_of_length_le (l := leBytes 4 magic) (by rw [length_leBytes]; exact h)]

theorem copyImage_fail (h : ¬ Fits B src dst remain) : copyImage f src dst remain magic = (false, []) := by
  rw [copyImage]
  split_ifs with hlen
  · rfl
  · have hblk : reach B src dst < copyBlock B src dst := by
      by_contra hb
      exact h ⟨by omega, by omega⟩
    rcases Nat.lt_or_ge (B.geom src).size (copyBlock B src dst + 0) with hr | hr
    · simp only [flashPartitionRead_none hr]
    · have h4 := four_le_copyBlock B src dst
      simp only [reach] at hblk
      simp only [flashPartitionRead_some hr, take_patched h4]
      rw [flashPartitionWrite_none]
      rw [length_take, length_drop, length_patched]
      omega

theorem copyImage_eq (h : Fits B src dst remain) :
    copyImage f src dst remain magic =
      ((copyLoop f src dst (copyBlock B src dst) (copySize B src dst remain - copyBlock B src dst)
          (copyBlock B src dst) (copySize B src dst remain - copyBlock B src dst)).1,
        blockWrites dst (B.geom dst).blocksize (copyBlock B src dst) 0
            (((patched f src magic).drop 0).take (copyBlock B src dst)) ++
          (copyLoop f src dst (copyBlock B src dst) (copySize B src dst remain - copyBlock B src dst)
            (copyBlock B src dst) (copySize B src dst remain - copyBlock B src dst)).2) := by
  obtain ⟨hlen, hblk⟩ := h
  have h4 := four_le_copyBlock B src dst
  have hsrc : copyBlock B src dst + 0 ≤ (B.geom src).size := Nat.le_trans hblk (Nat.min_le_left _ _)
  have hdst : copyBlock B src dst + 0 ≤ (B.geom dst).size := Nat.le_trans hblk (Nat.min_le_right _ _)
  have hbuf : (((patched f src magic).drop 0).take (copyBlock B src dst)).length = copyBlock B src dst := by
    rw [length_take, length_drop, length_patched]
    omega
  have hrest : (remain - copyBlock B src dst).toNat = copySize B src dst remain - copyBlock B src dst := by
    simp only [copySize]
    omega
  rw [copyImage, if_neg (by omega)]
  simp only [flashPartitionRead_some hsrc, take_patched h4]
  rw [flashPartitionWrite_some (by rw [hbuf]; exact hdst), hbuf, hrest]

theorem copyImage_ne_nil (h : Fits B src dst remain) : (copyImage f src dst remain magic).2 ≠ [] := by
  have h4 := four_le_copyBlock B src dst
  obtain ⟨k, hk⟩ := Nat.exists_eq_add_of_le' (show 1 ≤ copyBlock B src dst by omega)
  have hlen := Nat.le_trans h.2 (Nat.min_le_left _ _)
  rw [copyImage_eq h]
  rcases hd : ((patched f src magic).drop 0).take (copyBlock B src dst) with _ | ⟨x, d⟩
  · have := congrArg List.length hd
    rw [length_take, length_drop, length_patched, length_nil] at this
    omega
  · simp [hk, blockWrites]

theorem copies_copyImage (h : Fits B src dst remain) :
    Copies f dst (patched f src magic) 0 (copySize B src dst remain) (B.geom dst).blocksize (reach B src dst)
      (copyImage f src dst remain magic) := by
  have hblk := h.2
  have h4 := four_le_copyBlock B src dst
  have hloop : Copies f dst (patched f src magic) (0 + copyBlock B src dst)
      (copySize B src dst remain - copyBlock B src dst) _ _
      (copyLoop f src dst (copyBlock B src dst) (copySize B src dst remain - copyBlock B src dst)
        (0 + copyBlock B src dst) (copySize B src dst remain - copyBlock B src dst)) :=
    copies_copyLoop length_patched (by omega) .refl (drop_patched (by omega)) (by omega)
  have hstep := hloop.step (Nat.le_max_left _ _) (by omega) (by rw [length_patched]; exact Nat.min_le_left _ _)
  rw [Nat.zero_add] at hstep
  rw [Nat.min_eq_left (show (B.geom dst).blocksize ≤ copyBlock B src dst from Nat.le_max_right _ _)] at hstep
  rw [copyImage_eq h]
  exact hstep

end

theorem blocksize_le_copySize (B : Board) (src dst : Slot) (remain : Int) :
    (B.geom dst).blocksize ≤ copySize B src dst remain :=
  Nat.le_trans (Nat.le_max_right _ _) (Nat.le_max_left _ _)

theorem copyImage_take (src dst : Slot) (remain : Int) (magic : Nat) {d : Bool} {k : Nat}
    (hd : d = true → (copyImage f src dst remain magic).2.take k = (copyImage f src dst remain magic).2) :
    ((copyImage f src dst remain magic).2.take k = [] ∧ (d = true → ¬ Fits B src dst remain)) ∨
      Fits B src dst remain ∧ (copyImage f src dst remain magic).2.take k ≠ [] ∧
        (∀ op ∈ (copyImage f src dst remain magic).2.take k, op.writes dst = true) ∧
        ∃ n, (B.geom dst).blocksize ≤ n ∧ n ≤ reach B src dst ∧
          (d = true → copySize B src dst remain ≤ reach B src dst → n = copySize B src dst remain) ∧
          replay FlashOp.apply f ((copyImage f src dst remain magic).2.take k) =
            f.over dst (patched f src magic) n := by
  by_cases hfit : Fits B src dst remain
  · by_cases hk : (copyImage f src dst remain magic).2.take k = []
    · exact .inl ⟨hk, fun h => absurd ((hd h).symm.trans hk) (copyImage_ne_nil hfit)⟩
    have hcop : Copies f dst (patched f src magic) 0 _ _ _ (copyImage f src dst remain magic) := copies_copyImage hfit
    refine .inr ⟨hfit, hk, fun op hop => hcop.writes op (mem_of_mem_take hop), ?_⟩
    by_cases hall : d = true ∧ copySize B src dst remain ≤ reach B src dst
    · obtain ⟨-, hre⟩ := hcop.done (hcop.ok (by rw [zero_add]; exact hall.2))
      rw [Flash.over_zero, zero_add] at hre
      exact ⟨_, blocksize_le_copySize B src dst remain, hall.2, fun _ _ => rfl, by rw [hd hall.1, hre]⟩
    · obtain ⟨n, hn, hn', hre⟩ := hcop.cut k
      rw [Flash.over_zero] at hre
      rcases hn with ⟨hnil, -⟩ | hn
      · exact absurd hnil hk
      · exact ⟨n, by omega, hn', fun h h' => absurd ⟨h, h'⟩ hall, hre⟩
  · rw [copyImage_fail hfit]
    exact .inl ⟨take_nil, fun _ => hfit⟩

section

variable {f : Flash B} {s t : Slot} (h : t ≠ s) (a : List UInt8) (n : Nat)

include h

theorem Flash.hdr_over_of_ne : (f.over s a n).hdr t = f.hdr t := by
  rw [Flash.hdr, Flash.part_over_of_ne _ _ h, Flash.hdr]

theorem validateImage_over_of_ne : validateImage (f.over s a n) t = validateImage f t := by
  rw [validateImage_eq, validateImage_eq, Flash.part_over_of_ne _ _ h]

end

theorem patched_self (src : Slot) : patched f src (f.hdr src).magic = f.part src := by
  have hlen : ((f.part src).take 4).length = 4 := by
    rw [length_take, f.length_part]
    have := (B.geom src).header_le_size
    omega
  have := leBytes_le ((f.part src).take 4)
  rw [hlen] at this
  show leBytes 4 (le (((f.part src).drop 0).take 4)) ++ _ = _
  rw [drop_zero, this, take_append_drop]

variable {f : Flash B} {src dst : Slot} {magic n : Nat} (hn : n ≤ reach B src dst)
include hn

theorem le_length_src : n ≤ (f.part src).length := by
  rw [f.length_part]
  exact Nat.le_trans hn (Nat.min_le_left _ _)

theorem le_length_patched : n ≤ (patched f src magic).length := by
  rw [length_patched]
  exact Nat.le_trans hn (Nat.min_le_left _ _)

theorem le_size_dst : n ≤ (B.geom dst).size := Nat.le_trans hn (Nat.min_le_right _ _)

theorem magic_over (h4 : 4 ≤ n) (hm : magic < 2 ^ 32) :
    ((f.over dst (patched f src magic) n).hdr dst).magic = magic := by
  have ha := f.agree_over dst (patched f src magic) (le_length_patched hn) (le_size_dst hn)
  have hf : ((f.over dst (patched f src magic) n).hdr dst).magic = field (patched f src magic) 0 4 :=
    field_congr (ha.mono .refl h4)
  rw [hf, field, patched, drop_zero, take_left' (length_leBytes _ _)]
  exact le_leBytes hm

theorem magic_copied (hblk : (B.geom dst).blocksize ≤ n) (hm : magic < 2 ^ 32) :
    ((f.over dst (patched f src magic) n).hdr dst).magic = magic :=
  magic_over hn (Nat.le_trans (B.geom dst).four_le hblk) hm

theorem agree_over_src : Agree ((f.over dst (patched f src magic) n).part dst) (f.part src) 4 n := by
  intro i h₁ h₂
  rw [f.getElem?_over dst _ (le_length_patched hn) (le_size_dst hn), if_pos h₂]
  have hdrop : (patched f src magic).drop 4 = (f.part src).drop 4 := drop_patched (Nat.le_refl 4)
  have := congrArg (·[i - 4]?) hdrop
  simpa [getElem?_drop, Nat.add_sub_cancel' h₁] using this

theorem length_over (h16 : 16 ≤ n) : ((f.over dst (patched f src magic) n).hdr dst).length = (f.hdr src).length :=
  (size_congr ((agree_over_src hn).mono .refl h16)).1

theorem identifier_over (h : (f.hdr dst).identifier = (f.hdr src).identifier) :
    ((f.over dst (patched f src magic) n).hdr dst).identifier = (f.hdr src).identifier := by
  have hlen : ∀ s, 16 + 8 ≤ (f.part s).length := fun s => by
    rw [f.length_part]
    have := (B.geom s).header_le_size
    omega
  have hds : Agree (f.part dst) (f.part src) 16 24 := agree_of_field_eq (hlen dst) (hlen src) h
  refine field_congr (q := f.part src) fun i h₁ h₂ => ?_
  rcases Nat.lt_or_ge i n with hi | hi
  · exact agree_over_src hn i (by omega) hi
  · rw [f.getElem?_over dst _ (le_length_patched hn) (le_size_dst hn), if_neg (by omega)]
    exact hds i h₁ h₂

theorem validateImage_over (hsrc : validateImage f src = true) (hid : (f.hdr dst).identifier = B.platformIdentifier)
    (hmagic : magic = headerMagic ∨ isInternalMagic magic = true) (hm : magic < 2 ^ 32) (h16 : 16 ≤ n)
    (hlen : (f.hdr src).length ≤ n) (hsz : (B.geom dst).size ≤ (B.geom src).size) :
    validateImage (f.over dst (patched f src magic) n) dst = true := by
  rw [validateImage_eq] at hsrc ⊢
  have hids : (f.hdr src).identifier = B.platformIdentifier := (validImage_iff.mp hsrc).2.1
  have hag : Agree ((f.over dst (patched f src magic) n).part dst) (f.part src) 4 n := agree_over_src hn
  refine validImage_of_agree hsrc ?_ ?_ (hag.mono .refl h16) (fun hin => ?_) (fun hout => ?_)
  · have := magic_over (f := f) hn (by omega) hm
    rw [Flash.hdr] at this
    rwa [this]
  · exact (identifier_over hn (hid.trans hids.symm)).trans hids
  · rw [Flash.length_part]
    rw [f.length_part] at hin
    have hsize : (B.geom src).size < 2 ^ 31 := (B.geom src).size_lt
    have hnd := le_size_dst hn
    rcases Nat.eq_zero_or_pos (ImgHeader.ofBytes (f.part src)).remain with h0 | hpos
    · rw [h0]
      exact ⟨by omega, fun i h₁ h₂ => by omega⟩
    · have hl := ImgHeader.length_eq hpos (by omega)
      rw [Flash.hdr] at hlen
      exact ⟨by omega, hag.mono (by decide) (by omega)⟩
  · rw [Flash.length_part]
    rw [f.length_part] at hout
    omega

end NuttxApps.Nxboot
