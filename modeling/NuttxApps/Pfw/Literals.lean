import NuttxApps.Pfw.Sanitizer

/-!
# Printing and reading the states of criteria

A state is printed by `pfw_criterion_itoa` and read back by `pfw_criterion_atoi`. The loop that prints a mask ends at
bit 30, and a text is read up to 255 characters (`roundTrip_iff_clear`, `top_bit_lost`).
-/

namespace NuttxApps.Pfw

open CString Libc Consume List Option

/-- The value names can be told apart in a text, and from the text of the empty mask. -/
def Plain (ranges : Ranges) : Prop := ∀ l ∈ ranges.literals, delim ∉ l ∧ l ≠ emptyLiteral

instance (ranges : Ranges) : Decidable (Plain ranges) :=
  inferInstanceAs (Decidable (∀ l ∈ ranges.literals, delim ∉ l ∧ l ≠ emptyLiteral))

/-- A mask has no bit 31, and its text is at most 255 characters long. -/
def Ranges.Clear (ranges : Ranges) (state : BitVec 32) : Prop :=
  match ranges with
  | .inclusive .. => state.getLsbD 31 = false ∧ ∀ text, itoa ranges state = some text → text.length ≤ 255
  | _ => True

/-- `pfw_criterion_atoi` of what `pfw_criterion_itoa` prints. -/
def reread (t : Target) (ranges : Ranges) (state : BitVec 32) : Option (BitVec 32) :=
  (itoa ranges state).bind (atoi t ranges)

section

variable {literals : List Text} {state : BitVec 32}

theorem findIdx?_literal (hnodup : literals.Nodup) {i : Nat} {l : Text} :
    literals.findIdx? (· == l) = some i ↔ literals[i]? = some l := by
  refine ⟨fun h => ?_, fun h => ?_⟩
  · obtain ⟨hi, heq, -⟩ := findIdx?_eq_some_iff_getElem.mp h
    rw [getElem?_eq_getElem hi, eq_of_beq heq]
  · obtain ⟨hi, rfl⟩ := List.getElem?_eq_some_iff.mp h
    refine findIdx?_eq_some_iff_getElem.mpr ⟨hi, by simp, fun j hj heq => ?_⟩
    exact ne_of_lt hj ((getElem_inj hnodup).mp (eq_of_beq (by simpa using heq)))

theorem maskLiterals_eq (hstate : Declared literals state) {is : List Nat} (his : ∀ i ∈ is, i < 32) :
    maskLiterals literals state is = (is.filter state.getLsbD).filterMap (literals[·]?) := by
  fun_induction maskLiterals literals state is with
  | case1 => rfl
  | case2 i is hbit str hstr ih =>
    rw [filter_cons_of_pos hbit, filterMap_cons_some hstr, ih (forall_mem_cons.mp his).2]
  | case3 i is hbit hnone =>
    have hi := hstate i (forall_mem_cons.mp his).1 hbit
    exact absurd hnone (by rw [getElem?_eq_getElem hi]; nofun)
  | case4 i is hbit ih => rw [filter_cons_of_neg hbit, ih (forall_mem_cons.mp his).2]

theorem reread_exclusive {t : Target} {fits : literals.length ≤ 128} (hnodup : literals.Nodup)
    (hstate : (Ranges.exclusive literals fits).Holds state) :
    reread t (.exclusive literals fits) state = some state := by
  obtain ⟨hpos, hlt⟩ := hstate
  have hget : literals[state.toInt.toNat]? = some literals[state.toInt.toNat] := getElem?_eq_getElem (by omega)
  have hnat : state.toInt.toNat = state.toNat := by
    rw [BitVec.toInt_eq_toNat_cond] at hpos ⊢
    split at hpos <;> omega
  rw [reread, itoa, if_pos hpos, hget, bind_some, atoi, (findIdx?_literal hnodup).mpr hget, map_some, hnat,
    BitVec.ofNat_toNat, BitVec.setWidth_eq]

section

variable {words : List Text} (hnodup : literals.Nodup)
  (hmem : ∀ word, word ∈ words ↔ ∃ i < 31, state.getLsbD i ∧ literals[i]? = some word)

include hnodup hmem

theorem mask_words_iff (hlit : ∀ word ∈ words, word ∈ literals) (hstate : Declared literals state) :
    mask literals words = some state ↔ state.getLsbD 31 = false := by
  have hbit (k : Nat) (hk : k < 32) :
      (∃ word ∈ words, literals.findIdx? (· == word) = some k) ↔ k < 31 ∧ state.getLsbD k := by
    constructor
    · rintro ⟨word, hword, hfind⟩
      obtain ⟨i, hi, hbit, hget⟩ := (hmem word).mp hword
      rw [← findIdx?_literal hnodup, hfind] at hget
      exact some.inj hget ▸ ⟨hi, hbit⟩
    · rintro ⟨hlt, hbit⟩
      have hget := getElem?_eq_getElem (hstate k hk hbit)
      exact ⟨_, (hmem _).mpr ⟨k, hlt, hbit, hget⟩, (findIdx?_literal hnodup).mpr hget⟩
  rw [mask_eq_some_iff, and_iff_right hlit]
  refine ⟨fun h => ?_, fun htop k hk => ?_⟩
  · rw [← Bool.not_eq_true, h 31 (by decide), hbit 31 (by decide)]
    exact fun h => absurd h.1 (by decide)
  · rw [hbit k hk, iff_and_self]
    refine fun h => Nat.lt_of_le_of_ne (Nat.le_of_lt_succ hk) ?_
    rintro rfl
    exact Bool.false_ne_true (htop.symm.trans h)

/-- The words of a mask that is read back are different words of the text, so none of them was cut off. -/
theorem length_le_of_mask (hwords : words.Nodup) {text : Text}
    (h : mask literals (tokens (· == delim) text) = some state) :
    (([delim] : Text).intercalate words).length ≤ text.length := by
  refine length_intercalate_le hwords fun word hword => ?_
  obtain ⟨i, hi, hbit, hget⟩ := (hmem word).mp hword
  obtain ⟨token, htoken, hfind⟩ := ((mask_eq_some_iff.mp h).2 i (by omega)).mp hbit
  rw [findIdx?_literal hnodup, hget] at hfind
  exact some.inj hfind ▸ htoken

end

theorem tokens_words {words : List Text} (hplain : ∀ word ∈ words, (delim ∉ word ∧ word ≠ emptyLiteral) ∧ word ≠ []) :
    ([delim] : Text).intercalate words ≠ emptyLiteral ∧
      tokens (· == delim) (([delim] : Text).intercalate words) = words := by
  obtain _ | ⟨word, words⟩ := words
  · exact ⟨by decide, rfl⟩
  refine ⟨fun hempty => ?_, ?_⟩
  · obtain _ | ⟨next, words⟩ := words
    · exact (hplain word mem_cons_self).1.2 (by simpa using hempty)
    · have hdelim : delim ∈ emptyLiteral := by simp [← hempty, intercalate_cons_cons]
      exact absurd hdelim (by decide)
  · rw [tokens_intercalate (fun w hw => (hplain w hw).1.1) (cons_ne_nil _ _)]
    exact filter_eq_self.mpr fun w hw => by simpa using (hplain w hw).2

theorem reread_inclusive {t : Target} {fits : literals.length ≤ 32} (hnodup : literals.Nodup)
    (hne : ∀ l ∈ literals, l ≠ []) (hplain : Plain (.inclusive literals fits)) (hstate : Declared literals state) :
    reread t (.inclusive literals fits) state = some state ↔ (Ranges.inclusive literals fits).Clear state := by
  by_cases hzero : state = 0
  · subst hzero
    exact iff_of_true rfl ⟨rfl, fun text h => some.inj h ▸ by decide⟩
  obtain ⟨words, hwords⟩ : ∃ words, maskLiterals literals state (List.range 31) = words := ⟨_, rfl⟩
  have htext : itoa (.inclusive literals fits) state = some (([delim] : Text).intercalate words) := by
    rw [itoa, if_neg hzero, hwords]
  rw [maskLiterals_eq hstate (by simp; omega)] at hwords
  have hmem (word : Text) : word ∈ words ↔ ∃ i < 31, state.getLsbD i ∧ literals[i]? = some word := by
    simp [← hwords, and_assoc]
  have hlit (word : Text) (hword : word ∈ words) : word ∈ literals := by
    obtain ⟨i, -, -, hi⟩ := (hmem word).mp hword
    exact mem_of_getElem? hi
  obtain ⟨hempty, htokens⟩ := tokens_words fun w hw => ⟨hplain w (hlit w hw), hne w (hlit w hw)⟩
  rw [reread, htext, bind_some, atoi, if_neg hempty]
  simp only [Ranges.Clear, htext, some.injEq, forall_eq']
  by_cases hlong : (([delim] : Text).intercalate words).length ≤ 255
  · rw [take_of_length_le hlong, htokens, mask_words_iff hnodup hmem hlit hstate, and_iff_left hlong]
  · refine iff_of_false (fun h => hlong ?_) fun h => hlong h.2
    have hdistinct : words.Nodup := by
      rw [← hwords]
      refine Pairwise.filterMap _ ?_ (nodup_range.filter _)
      rintro i j hne l hi _ hj rfl
      rw [← findIdx?_literal hnodup] at hi hj
      exact hne (some.inj (hi.symm.trans hj))
    exact (length_le_of_mask hnodup hmem hdistinct h).trans (length_take_le _ _)

end

theorem mem_of_parseRanges {t : Target} {type : Text} {words : List Text} {ranges : Ranges}
    (h : parseRanges t type words = .ok ranges) : ∀ l ∈ ranges.literals, l ∈ words := by
  rw [parseRanges] at h
  split_ifs at h <;> cases h
  · exact forall_mem_nil _
  · exact fun l hl => hl
  · exact fun l hl => hl

theorem literals_accepted {env : Env} {lines rest : List Line} {d : CriterionDef} {c : Criterion}
    (hparse : parseCriterion env.target lines = .ok (d, rest)) (hsan : sanitizeCriterion env d = .ok c) :
    c.ranges.literals.Nodup ∧ ∀ l ∈ c.ranges.literals, l ≠ [] := by
  have hranges : c.ranges = d.ranges ∧ d.ranges.literals.Nodup := by
    rw [sanitizeCriterion] at hsan
    split at hsan
    · cases hsan
    · split_ifs at hsan with hnodup
      cases hsan
      exact ⟨rfl, hnodup.1⟩
  rw [hranges.1]
  refine ⟨hranges.2, ?_⟩
  obtain _ | ⟨line, lines⟩ := lines
  · cases hparse
  rw [parseCriterion] at hparse
  cases htokens : tokens isBlank line.text with
  | nil => simp [htokens] at hparse
  | cons type words =>
    simp only [htokens] at hparse
    split_ifs at hparse
    split at hparse
    · cases hparse
    · cases hparse
    · rename_i r init hr hinit
      cases hparse
      intro l hl
      have hsub := (takeWhile_sublist (· ≠ chars ['='])).trans
        ((tail_sublist _).trans (dropWhile_sublist (l := words) (· ≠ chars [':'])))
      have hmem : l ∈ tokens isBlank line.text := htokens ▸ .tail type (hsub.mem (mem_of_parseRanges hr l hl))
      simpa using (mem_filter.mp hmem).2

/-- A state that is printed and read back is the same exactly if it is an index, or a mask without bit 31 whose text has
at most 255 characters. -/
theorem roundTrip_iff_clear {env : Env} {lines rest : List Line} {d : CriterionDef} {c : Criterion} {state : BitVec 32}
    (hparse : parseCriterion env.target lines = .ok (d, rest)) (hsan : sanitizeCriterion env d = .ok c)
    (htype : ∀ intervals, c.ranges ≠ .numerical intervals) (hplain : Plain c.ranges)
    (hstate : c.ranges.Holds state) :
    reread env.target c.ranges state = some state ↔ c.ranges.Clear state := by
  obtain ⟨hnodup, hne⟩ := literals_accepted hparse hsan
  generalize c.ranges = ranges at *
  cases ranges with
  | exclusive literals fits => exact iff_of_true (reread_exclusive hnodup hstate) trivial
  | inclusive literals fits => exact reread_inclusive hnodup hne hplain hstate
  | numerical intervals => exact absurd rfl (htype intervals)

def maskLine (literals : List Text) : List Line :=
  [⟨0, ([32] : Text).intercalate ([inclusiveWord, chars ['d'], chars [':']] ++ literals)⟩]

theorem roundTrip_two : reread .bits32 (.inclusive [chars ['a'], chars ['b']] length_masks_le) 3 = some 3 :=
  (@roundTrip_iff_clear plainEnv (maskLine [chars ['a'], chars ['b']]) [] ⟨_, _, _⟩ ⟨_, _, _, _⟩ 3 rfl rfl nofun
    (by decide) (by decide)).mpr ⟨rfl, fun text h => some.inj h ▸ by decide⟩

/-- What is read back for a state in range of an accepted criterion with plain literals. -/
def rereadLine (literals : List Text) (state : BitVec 32) : Except Stop (Option (BitVec 32)) := do
  let (d, _) ← parseCriterion .bits32 (maskLine literals)
  let c ← sanitizeCriterion plainEnv d
  if Plain c.ranges ∧ c.ranges.Holds state then return reread .bits32 c.ranges state else .error .invalid

/-- The last bit of 32 is not printed, and of literals with 255 characters the last one is cut off. -/
theorem top_bit_lost :
    (rereadLine ((List.range 32).map fun i => [.ofNat (65 + i)]) 0x80000001).toOption = some (some 1) ∧
      (rereadLine [List.replicate 253 97, [98], [99]] 7).toOption = some (some 3) := by
  decide +kernel

end NuttxApps.Pfw
