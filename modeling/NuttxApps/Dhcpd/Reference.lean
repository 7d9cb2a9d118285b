import NuttxApps.Dhcpd.Options

/-!
# What the options of a message should be

A reference parser reads the options that were received, and the `file` and `sname` fields where the overload option
names them. `correct_iff` says for which options `dhcpd_parseoptions` stores the same values and stays inside the
fields, whatever these hold.
-/

namespace NuttxApps.Dhcpd

open Tlv Option
open List hiding min

def values (bs : List UInt8) (a : Parsed) : Parsed := (tlvs bs).1.foldl put a

/-- The values that should be stored; `os` are the bytes received of the `options` field. -/
def reference (old : Opts) (os file sname : List UInt8) : Opts :=
  if os.take 4 = magiccookie then
    let a := values (os.drop 4) .zero
    let a := if a.overloaded &&& 1 ≠ 0 then values file a else a
    let a := if a.overloaded &&& 2 ≠ 0 then values sname a else a
    a.toOpts
  else old

def Correct (old : Opts) (mem : Nat → UInt8) (os : List UInt8) : Prop :=
  ∃ ok opts reads, parseoptions mem old = some (ok, opts, reads) ∧
    opts = reference old os (bytesAt mem Field.file.start Field.file.size)
      (bytesAt mem Field.sname.start Field.sname.size) ∧ Inside reads

/-- The list ends with END; or inside an option that does not end before the field; or it fills the field, and nothing
of it depends on the last byte. -/
def Ends (os : List UInt8) : Prop :=
  match (tlvs (os.drop 4)).2 with
  | .ended => True
  | .exhausted => os.length = 312 ∧ ((before (os.drop 4)).foldl put .zero).toOpts = (values (os.drop 4) .zero).toOpts
  | .noLength => os.length = 311
  | .short k => 312 ≤ os.length + k

/-- The received options do not begin with the magic cookie; or no overload option has a bit set, and the list ends in
the field. -/
def Clean (os : List UInt8) : Prop :=
  ¬ os.take 4 <+: magiccookie ∨
    os.take 4 = magiccookie ∧ (values (os.drop 4) .zero).overloaded &&& 3 = 0 ∧ Ends os

variable (m : Nat) (a : UInt8) (bs : List UInt8) (v : Parsed)

variable {mem mem₁ mem₂ : Nat → UInt8} {old : Opts} {os : List UInt8}

theorem inside_check : Inside ((List.range 4).map fun i => (Field.options, Field.options.start + i)) := by
  intro p hp
  obtain ⟨i, hi, rfl⟩ := mem_map.mp hp
  have := mem_range.mp hi
  simp only [Field.start, Field.size]
  omega

theorem parseoptions_of_cookie (old : Opts) (hc : bytesAt mem 236 4 = magiccookie) :
    ∃ ok s, parseoptions mem old = some (ok, s.vals.toOpts,
        s.reads ++ (List.range 4).map fun i => (Field.options, Field.options.start + i)) ∧
      loop mem 504 begin = some (ok, s) ∧ Scanned (bytesAt mem 240 308) .zero s := by
  have hsome : (loop mem 504 begin).isSome := loop_isSome mem (by decide) (by decide)
  obtain ⟨⟨ok, s⟩, hs⟩ := isSome_iff_exists.mp hsome
  refine ⟨ok, s, ?_, hs, loop_options hs rfl (by decide) rfl (by decide) nofun⟩
  rw [parseoptions]
  simp only [Field.start, Field.size, hc, if_true, hs, map_some]

theorem parseoptions_of_no_cookie (old : Opts) (hc : bytesAt mem 236 4 ≠ magiccookie) :
    ∃ reads, parseoptions mem old = some (false, old, reads) ∧ Inside reads :=
  ⟨_, if_neg hc, inside_check⟩

theorem inside_append {a b : List (Field × Nat)} : Inside (a ++ b) ↔ Inside a ∧ Inside b := by
  rw [Inside, forall_mem_append, Inside, Inside]

section

variable {o r : List UInt8} {ts : List (UInt8 × List UInt8)}

theorem tlvs_append (ho : tlvs o = (ts, .exhausted)) : tlvs (o ++ r) = (ts ++ (tlvs r).1, (tlvs r).2) := by
  rw [tlvs, walk_append (by decide) (congrArg Prod.snd ho), ← tlvs, ho, tlvs]

theorem before_append (ho : tlvs o = (ts, .exhausted)) (hr : r ≠ []) : before (o ++ r) = ts ++ before r := by
  rw [before, dropLast_append_of_ne_nil hr, tlvs_append ho, before]

theorem tlvs_split : ∃ o rest, bs = o ++ rest ∧ tlvs o = ((tlvs bs).1, .exhausted) ∧ Rest 0 255 rest (tlvs bs).2 :=
  walk_split (by decide) bs

theorem stop_short {c n : UInt8} {bs : List UInt8} (hc : c ≠ 255) (hc' : c ≠ 0) (hn : bs.length ≤ n.toNat) :
    (tlvs (c :: n :: bs)).2 ≠ .noLength := by
  rcases Nat.lt_or_eq_of_le hn with hlt | heq
  · rw [tlvs, walk_short hc hc' hlt]
    simp
  · rw [tlvs, walk_option hc hc' (Nat.le_of_eq heq.symm), drop_eq_nil_of_le (Nat.le_of_eq heq)]
    simp [walk]

theorem ends_append (hends : Ends os) (stale : List UInt8) (hlen : os.length + stale.length = 312) :
    (tlvs (os.drop 4 ++ stale)).2 ≠ .noLength ∧
      ((tlvs (os.drop 4 ++ stale)).2 = .ended → before (os.drop 4 ++ stale) = (tlvs (os.drop 4)).1) ∧
      ((before (os.drop 4 ++ stale)).foldl put .zero).toOpts = (values (os.drop 4) .zero).toOpts := by
  obtain ⟨o, rest, hbody, ho, hrest⟩ := tlvs_split (os.drop 4)
  have hbodylen := congrArg List.length hbody
  unfold Ends at hends
  generalize hstop : (tlvs (os.drop 4)).2 = stop at hends hrest
  by_cases hexhausted : stop = .exhausted
  · subst hexhausted
    cases hrest
    obtain rfl : stale = [] := eq_nil_of_length_eq_zero (by simp at hbodylen; omega)
    rw [append_nil, hstop]
    exact ⟨by decide, by simp, hends.2⟩
  -- it is enough that no option of the rest ends before the field
  suffices h : rest ++ stale ≠ [] ∧ (tlvs (rest ++ stale)).2 ≠ .noLength ∧ before (rest ++ stale) = [] by
    have hb : before (os.drop 4 ++ stale) = (tlvs (os.drop 4)).1 := by
      rw [congrArg (· ++ stale) hbody, append_assoc, before_append ho h.1, h.2.2, append_nil]
    refine ⟨?_, fun _ => hb, by rw [hb, values]⟩
    rw [congrArg (· ++ stale) hbody, append_assoc, tlvs_append ho]
    exact h.2.1
  cases hrest with
  | exhausted => exact absurd rfl hexhausted
  | ended bs => exact ⟨by simp, by rw [cons_append, tlvs, walk_fin]; decide, before_end _⟩
  | noLength c hc hc' =>
    obtain ⟨x, rfl⟩ := length_eq_one_iff.mp (show stale.length = 1 by omega)
    exact ⟨by simp, stop_short hc hc' (Nat.zero_le _), before_short hc hc' (Nat.zero_le _)⟩
  | short c n bs hc hc' hn =>
    have hle : (bs ++ stale).length ≤ n.toNat := by
      rw [length_append]
      omega
    exact ⟨by simp, stop_short hc hc' hle, before_short hc hc' hle⟩

end

section

variable (hlen : os.length ≤ 312) (hmem : bytesAt mem 236 os.length = os)

include hlen hmem

theorem options_eq : bytesAt mem 236 312 = os ++ bytesAt mem (236 + os.length) (312 - os.length) := by
  have h := bytesAt_append mem 236 os.length (312 - os.length)
  rwa [hmem, Nat.add_sub_cancel' hlen] at h

theorem cookie_prefix : os.take 4 <+: bytesAt mem 236 4 := by
  have h : (bytesAt mem 236 (4 + 308)).take 4 = bytesAt mem 236 4 := take_bytesAt mem 236 4 308
  rw [← h, options_eq hlen hmem, take_append]
  exact prefix_append _ _

theorem cookie_eq (hc : os.take 4 = magiccookie) : bytesAt mem 236 4 = magiccookie := by
  have h := cookie_prefix hlen hmem
  rw [hc] at h
  exact (h.eq_of_length (by simp [magiccookie])).symm

theorem body_eq (hc : os.take 4 = magiccookie) :
    bytesAt mem 240 308 = os.drop 4 ++ bytesAt mem (236 + os.length) (312 - os.length) := by
  have hfour : 4 ≤ os.length := by
    have : min 4 os.length = 4 := by rw [← length_take, hc]; rfl
    omega
  have h : (bytesAt mem 236 (4 + 308)).drop 4 = bytesAt mem 240 308 := drop_bytesAt mem 236 4 308
  rw [← h, options_eq hlen hmem, drop_append_of_le_length hfour]

end

theorem and_one_of_and_three {v : UInt8} (h : v &&& 3 = 0) : v &&& 1 = 0 ∧ v &&& 2 = 0 := by
  have h₁ : v &&& 1 = v &&& 3 &&& 1 := by rw [UInt8.and_assoc]; rfl
  have h₂ : v &&& 2 = v &&& 3 &&& 2 := by rw [UInt8.and_assoc]; rfl
  rw [h₁, h₂, h]
  exact ⟨rfl, rfl⟩

theorem correct_of_clean (hclean : Clean os) (hlen : os.length ≤ 312) (hmem : bytesAt mem 236 os.length = os) :
    Correct old mem os := by
  rcases hclean with hno | ⟨hc, hover, hends⟩
  · have hne : bytesAt mem 236 4 ≠ magiccookie := by
      intro h
      exact hno (h ▸ cookie_prefix hlen hmem)
    obtain ⟨reads, hparse, hin⟩ := parseoptions_of_no_cookie old hne
    refine ⟨false, old, reads, hparse, ?_, hin⟩
    rw [reference, if_neg (by rintro h; exact hno (h ▸ prefix_rfl))]
  · obtain ⟨ok, s, hparse, -, hscan⟩ := parseoptions_of_cookie old (cookie_eq hlen hmem hc)
    rw [body_eq hlen hmem hc] at hscan
    obtain ⟨hstop, hended, hvals⟩ := ends_append hends (bytesAt mem (236 + os.length) (312 - os.length))
      (by rw [length_bytesAt]; omega)
    obtain ⟨hone, htwo⟩ := and_one_of_and_three hover
    obtain ⟨hin, hs⟩ := hscan.2 hstop fun h => by rw [hended h]; exact hone
    refine ⟨ok, _, _, hparse, ?_, inside_append.mpr ⟨hin, inside_check⟩⟩
    rw [hs, hvals, reference, if_pos hc]
    simp only [hone, htwo, ne_eq, not_true_eq_false, if_false]

/-! ## Messages on which the two differ -/

def image (sname file options : List UInt8) : Nat → UInt8 := fun a =>
  if a < 44 then 0
  else if a < 108 then sname.getD (a - 44) 0
  else if a < 236 then file.getD (a - 108) 0
  else options.getD (a - 236) 0

theorem bytesAt_image (sname file : List UInt8) {options : List UInt8} {n : Nat} (hn : n ≤ options.length) :
    bytesAt (image sname file options) 236 n = options.take n := by
  refine ext_getElem (by rw [length_bytesAt, length_take, Nat.min_eq_left hn]) fun i hi _ => ?_
  rw [length_bytesAt] at hi
  have hopt : image sname file options (236 + i) = options[i] := by
    rw [image, if_neg (by omega), if_neg (by omega), if_neg (by omega), Nat.add_sub_cancel_left,
      getD_eq_getElem?_getD,
      getElem?_eq_getElem (by omega), getD_some]
  simp only [bytesAt, getElem_map, getElem_range, hopt, getElem_take]

theorem not_first {reads : List (Field × Nat)} (hin : Inside reads) (hlate : ∀ p ∈ reads, Late p) :
    ∀ p ∈ reads, p.2 ≠ 44 ∧ p.2 ≠ 108 := by
  rintro ⟨f, a⟩ hp
  have hin := hin _ hp
  have hlate := hlate _ hp
  cases f with
  | options =>
    have := hin.1
    simp only [Field.start] at this
    omega
  | file =>
    have := hlate.2 (by simp)
    simp only [Field.start] at this
    omega
  | sname =>
    have h₁ := hlate.2 (by simp)
    have h₂ := hin.2
    simp only [Field.start, Field.size] at h₁ h₂
    omega

/-- Where the parser is right about two messages that differ in the first byte of `sname` and `file` only, their options
are the same. -/
theorem reference_eq_of_correct (h₁ : Correct old mem₁ os) (h₂ : Correct old mem₂ os)
    (hagree : ∀ a, a ≠ 44 → a ≠ 108 → mem₁ a = mem₂ a) :
    reference old os (bytesAt mem₁ 108 128) (bytesAt mem₁ 44 64) =
      reference old os (bytesAt mem₂ 108 128) (bytesAt mem₂ 44 64) := by
  obtain ⟨ok₁, opts₁, reads₁, hp₁, ho₁, hin₁⟩ := h₁
  obtain ⟨ok₂, opts₂, reads₂, hp₂, ho₂, -⟩ := h₂
  have hcookie : bytesAt mem₁ 236 4 = bytesAt mem₂ 236 4 :=
    map_congr_left fun i _ => hagree _ (by omega) (by omega)
  suffices hopts : opts₁ = opts₂ from ho₁.symm.trans (hopts.trans ho₂)
  by_cases hc : bytesAt mem₁ 236 4 = magiccookie
  · obtain ⟨ok, s, hparse, hloop, -⟩ := parseoptions_of_cookie old hc
    obtain ⟨ok', s', hparse', hloop', -⟩ := parseoptions_of_cookie old (hcookie ▸ hc)
    rw [hparse] at hp₁
    rw [hparse'] at hp₂
    cases hp₁
    cases hp₂
    have hlate := loop_late hloop ⟨by decide, nofun⟩ (fun _ => rfl) nofun
    have hfirst := not_first (inside_append.mp hin₁).1 hlate
    have hsame := loop_congr hloop fun p hp => hagree p.2 (hfirst p hp).1 (hfirst p hp).2
    rw [hsame] at hloop'
    cases hloop'
    rfl
  · obtain ⟨reads, hparse, -⟩ := parseoptions_of_no_cookie old hc
    obtain ⟨reads', hparse', -⟩ := parseoptions_of_no_cookie old (hcookie ▸ hc)
    rw [hparse] at hp₁
    rw [hparse'] at hp₂
    cases hp₁
    cases hp₂
    rfl

theorem values_end : values (255 :: bs) v = v := by
  rw [values, tlvs, walk_fin]
  rfl

theorem values_msgtype : values (53 :: 1 :: a :: 255 :: bs) v = { v with msgtype := a } := by
  show List.foldl put v ((53, [a]) :: (walk 0 255 0 (255 :: bs)).1) = _
  rw [walk_fin]
  rfl

/-- Both fields hold the option `b` or `c` with the one byte `m`; with END for the code, they
are empty. -/
def probe (m b c : UInt8) (os : List UInt8) : Nat → UInt8 := image [b, 1, m, 255] [c, 1, m, 255] os

theorem probe_congr (m b b' c c' : UInt8) (os : List UInt8) {a : Nat} (h₄₄ : a ≠ 44) (h₁₀₈ : a ≠ 108) :
    probe m b c os a = probe m b' c' os a := by
  have htail : ∀ {x y : UInt8} {l : List UInt8} {i : Nat}, i ≠ 0 → (x :: l).getD i 0 = (y :: l).getD i 0 := by
    intro x y l i hi
    obtain ⟨k, rfl⟩ := Nat.exists_eq_succ_of_ne_zero hi
    rfl
  rw [probe, probe, image, image]
  split
  · rfl
  split
  · exact htail (by omega)
  split
  · exact htail (by omega)
  · rfl

theorem values_probe_file (m b c : UInt8) (os : List UInt8) :
    ∃ bs, bytesAt (probe m b c os) 108 128 = c :: 1 :: m :: 255 :: bs := by
  exact ⟨_, rfl⟩

theorem values_probe_sname (m b c : UInt8) (os : List UInt8) :
    ∃ bs, bytesAt (probe m b c os) 44 64 = b :: 1 :: m :: 255 :: bs := by
  exact ⟨_, rfl⟩

theorem overloaded_of_correct (h : ∀ old mem, bytesAt mem 236 os.length = os → Correct old mem os)
    (hc : os.take 4 = magiccookie) : (values (os.drop 4) .zero).overloaded &&& 3 = 0 := by
  generalize hv : values (os.drop 4) .zero = v
  have hne : v.msgtype + 1 ≠ v.msgtype := by
    intro h
    have := congrArg UInt8.toNat h
    rw [UInt8.toNat_add] at this
    simp only [UInt8.reduceToNat] at this
    omega
  -- the parser does not see whether the first byte of a field begins an option or ends the list
  have hsame : ∀ b b' c c', reference v.toOpts os (bytesAt (probe (v.msgtype + 1) b c os) 108 128)
        (bytesAt (probe (v.msgtype + 1) b c os) 44 64) =
      reference v.toOpts os (bytesAt (probe (v.msgtype + 1) b' c' os) 108 128)
        (bytesAt (probe (v.msgtype + 1) b' c' os) 44 64) := by
    intro b b' c c'
    have hmem : ∀ b c, bytesAt (probe (v.msgtype + 1) b c os) 236 os.length = os := by
      intro b c
      rw [probe, bytesAt_image _ _ .refl, take_length]
    exact reference_eq_of_correct (h _ _ (hmem b c)) (h _ _ (hmem b' c')) fun a => probe_congr _ _ _ _ _ _
  have hone : v.overloaded &&& 1 = 0 := by
    by_contra hbit
    have heq := hsame 255 255 53 255
    obtain ⟨f, hf⟩ := values_probe_file (v.msgtype + 1) 255 53 os
    obtain ⟨f', hf'⟩ := values_probe_file (v.msgtype + 1) 255 255 os
    obtain ⟨g, hg⟩ := values_probe_sname (v.msgtype + 1) 255 53 os
    obtain ⟨g', hg'⟩ := values_probe_sname (v.msgtype + 1) 255 255 os
    rw [hf, hf', hg, hg', reference, reference, if_pos hc, if_pos hc, hv] at heq
    simp only [values_msgtype, values_end, ite_self, if_pos hbit] at heq
    exact hne (congrArg Opts.msgtype heq)
  have htwo : v.overloaded &&& 2 = 0 := by
    by_contra hbit
    have heq := hsame 53 255 0 0
    obtain ⟨g, hg⟩ := values_probe_sname (v.msgtype + 1) 53 0 os
    obtain ⟨g', hg'⟩ := values_probe_sname (v.msgtype + 1) 255 0 os
    rw [hg, hg', reference, reference, if_pos hc, if_pos hc, hv] at heq
    simp only [hone, ne_eq, not_true_eq_false, if_false, values_msgtype, values_end, ite_self] at heq
    rw [if_pos hbit] at heq
    exact hne (congrArg Opts.msgtype heq)
  have hor : v.overloaded &&& 3 = (v.overloaded &&& 1) ||| (v.overloaded &&& 2) :=
    UInt8.toBitVec_inj.mp (BitVec.and_or_distrib_left (x := v.overloaded.toBitVec) (y := 1#8) (z := 2#8))
  rw [hor, hone, htwo]
  rfl

def pads : List UInt8 := .replicate m 0 ++ [1]

theorem length_pads : (pads m).length = m + 1 := by simp [pads]

theorem pads_succ : pads (m + 1) = 0 :: pads m := by
  rw [pads, replicate_succ, cons_append, pads]

theorem tlvs_pads : tlvs (pads m) = ([], .noLength) := by
  induction m with
  | zero => rfl
  | succ m ih => rw [pads_succ, tlvs_pad, ih]

theorem drop_pads {k m : Nat} (hk : k ≤ m) : (pads m).drop k = pads (m - k) := by
  rw [pads, drop_append_of_le_length (by rwa [length_replicate]), drop_replicate, pads]

theorem stop_pads (hends : ¬ Ends os) (hlt : os.length < 312) :
    (tlvs (os.drop 4 ++ pads (311 - os.length))).2 = .noLength := by
  obtain ⟨o, rest, hbody, ho, hrest⟩ := tlvs_split (os.drop 4)
  rw [congrArg (· ++ pads (311 - os.length)) hbody, append_assoc, tlvs_append ho]
  show (tlvs (rest ++ pads (311 - os.length))).2 = .noLength
  unfold Ends at hends
  generalize (tlvs (os.drop 4)).2 = stop at hends hrest
  cases hrest with
  | exhausted => rw [nil_append, tlvs_pads]
  | ended bs => exact absurd trivial hends
  | noLength c hc hc' =>
    obtain ⟨m, hm⟩ : ∃ m, 311 - os.length = m + 1 := ⟨310 - os.length, by dsimp only at hends; omega⟩
    have hzero : (0 : UInt8).toNat ≤ (pads m).length := Nat.zero_le _
    rw [hm, pads_succ, cons_append, nil_append, tlvs, walk_option hc hc' hzero]
    exact congrArg Prod.snd (tlvs_pads m)
  | short c n bs hc hc' hn =>
    replace hends : ¬ 312 ≤ os.length + (n.toNat - bs.length) := hends
    rw [cons_append, cons_append, tlvs,
      walk_option hc hc' (by rw [length_append, length_pads]; omega), drop_append,
      drop_eq_nil_of_le (Nat.le_of_lt hn), nil_append, drop_pads (by omega)]
    exact congrArg Prod.snd (tlvs_pads _)

theorem ends_of_correct (hlen : os.length ≤ 312)
    (h : ∀ old mem, bytesAt mem 236 os.length = os → Correct old mem os) (hc : os.take 4 = magiccookie)
    (hover : (values (os.drop 4) .zero).overloaded &&& 3 = 0) : Ends os := by
  -- what the parser makes of the options with any bytes behind them
  have hscan : ∀ stale, os.length + stale.length = 312 →
      ∃ s, Scanned (os.drop 4 ++ stale) .zero s ∧ Inside s.reads ∧
        s.vals.toOpts = (values (os.drop 4) .zero).toOpts := by
    intro stale hstale
    have hlen' : (os ++ stale).length = 312 := by rw [length_append, hstale]
    have hmem : bytesAt (image [] [] (os ++ stale)) 236 os.length = os := by
      rw [bytesAt_image _ _ (by omega), take_left]
    have hbody : bytesAt (image [] [] (os ++ stale)) 240 308 = os.drop 4 ++ stale := by
      have hrest := options_eq hlen hmem
      rw [bytesAt_image _ _ (by omega), take_of_length_le (by omega)] at hrest
      rw [body_eq hlen hmem hc, ← append_cancel_left hrest]
    obtain ⟨ok, opts, reads, hp, hopts, hin⟩ := h ⟨0, 0, 0, 0⟩ _ hmem
    obtain ⟨ok', s, hparse, -, hs⟩ := parseoptions_of_cookie ⟨0, 0, 0, 0⟩ (cookie_eq hlen hmem hc)
    rw [hparse] at hp
    cases hp
    rw [hbody] at hs
    refine ⟨s, hs, (inside_append.mp hin).1, ?_⟩
    obtain ⟨hone, htwo⟩ := and_one_of_and_three hover
    rw [hopts, reference, if_pos hc]
    simp only [hone, htwo, ne_eq, not_true_eq_false, if_false]
  rcases Nat.lt_or_eq_of_le hlen with hlt | hfull
  · by_contra hends
    obtain ⟨s, hs, hin, -⟩ := hscan (pads (311 - os.length)) (by rw [length_pads]; omega)
    exact hs.1 (stop_pads hends hlt) hin
  · obtain ⟨s, hs, hin, hvals⟩ := hscan [] (by rw [hfull]; rfl)
    rw [append_nil] at hs
    unfold Ends
    cases hstop : (tlvs (os.drop 4)).2 with
    | ended => trivial
    | exhausted => exact ⟨hfull, by rw [← hvals, (hs.2 (by rw [hstop]; nofun) (by rw [hstop]; nofun)).2]⟩
    | noLength => exact absurd hin (hs.1 hstop)
    | short k => exact hfull ▸ Nat.le_add_right _ _

theorem cookie_of_correct (h : ∀ old mem, bytesAt mem 236 os.length = os → Correct old mem os)
    (hpre : os.take 4 <+: magiccookie) : os.take 4 = magiccookie := by
  by_contra hne
  have hlt : (os.take 4).length < 4 := by
    refine Nat.lt_of_le_of_ne hpre.length_le fun heq => hne (hpre.eq_of_length heq)
  have hshort : os.length < 4 := by
    rw [length_take] at hlt
    omega
  rw [take_of_length_le (Nat.le_of_lt hshort)] at hpre hne
  have hmem : bytesAt (image [] [] (magiccookie ++ [255])) 236 os.length = os := by
    rw [bytesAt_image _ _ (by simp [magiccookie]; omega), take_append_of_le_length hpre.length_le]
    exact (prefix_iff_eq_take.mp hpre).symm
  obtain ⟨ok, opts, reads, hp, hopts, -⟩ := h ⟨1, 0, 0, 0⟩ _ hmem
  rw [reference, take_of_length_le (Nat.le_of_lt hshort), if_neg hne] at hopts
  have hzero : (parseoptions (image [] [] (magiccookie ++ [255])) ⟨1, 0, 0, 0⟩).map (fun r => r.2.1) =
      some ⟨0, 0, 0, 0⟩ := by
    decide
  rw [hp, map_some, some_inj, hopts] at hzero
  cases hzero

/-- The parser stores what it should and reads inside the fields, whatever the message holds besides, exactly if the
options are clean. -/
theorem correct_iff (os : List UInt8) (hlen : os.length ≤ 312) :
    (∀ old mem, bytesAt mem 236 os.length = os → Correct old mem os) ↔ Clean os := by
  refine ⟨fun h => ?_, fun hclean old mem hmem => correct_of_clean hclean hlen hmem⟩
  by_cases hpre : os.take 4 <+: magiccookie
  · have hc := cookie_of_correct h hpre
    have hover := overloaded_of_correct h hc
    exact .inr ⟨hc, hover, ends_of_correct hlen h hc hover⟩
  · exact .inl hpre

def plainDiscover : List UInt8 := magiccookie ++ [53, 1, 1, 255]

theorem correct_discover : Correct ⟨0, 0, 0, 0⟩ (image [] [] plainDiscover) plainDiscover := by
  have hstop : (tlvs (plainDiscover.drop 4)).2 = .ended := by decide
  have hends : Ends plainDiscover := by
    trivial
  exact (correct_iff plainDiscover (by decide)).mpr (.inr ⟨rfl, by decide, hends⟩) _ _ (by decide)

def overloadedRequest : List UInt8 := magiccookie ++ [52, 1, 1, 53, 1, 3, 255]

/-- The `file` field asks for 10.0.0.2. The parser skips its first three bytes, as many as the last option before END
has. -/
theorem overload_file_skipped :
    ¬ Correct ⟨0, 0, 0, 0⟩ (image [] [50, 4, 10, 0, 0, 2, 255] overloadedRequest) overloadedRequest := by
  rintro ⟨ok, opts, reads, hp, hopts, -⟩
  have hparse : (parseoptions (image [] [50, 4, 10, 0, 0, 2, 255] overloadedRequest) ⟨0, 0, 0, 0⟩).map
      (fun r => r.2.1) =
      some ⟨3, 0, 0, 0⟩ := by
    decide
  rw [hp, map_some, some_inj] at hparse
  have hreqip := congrArg Opts.reqip (hopts.symm.trans hparse)
  revert hreqip
  decide +kernel

end NuttxApps.Dhcpd
