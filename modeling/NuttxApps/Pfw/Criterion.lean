import NuttxApps.Framework.Libc
import NuttxApps.Framework.Replay

/-!
# The criteria of the parameter framework

A criterion holds a 32-bit state: the index of one of its literals, a mask of them, or a number of its intervals.
`run_sound_iff` compares what a call does with the value that its arguments denote, and finds the calls that are `Fine`;
`in_range_iff` carries that over any sequence of calls.
-/

namespace NuttxApps.Pfw

open CString Libc Replay List Option

abbrev Text := List UInt8

scoped instance : LawfulBEq Text := List.instLawfulBEq

structure Interval where
  (left right : BitVec 32)
deriving DecidableEq, Repr

def Interval.Has (itv : Interval) (n : Int) : Prop := itv.left.toInt ≤ n ∧ n ≤ itv.right.toInt

instance (itv : Interval) (n : Int) : Decidable (itv.Has n) := inferInstanceAs (Decidable (_ ∧ _))

/-- A vector holds at most 128 literals, and the parser takes at most 32 of them for a mask. -/
inductive Ranges
  | exclusive (literals : List Text) (fits : literals.length ≤ 128)
  | inclusive (literals : List Text) (fits : literals.length ≤ 32)
  | numerical (intervals : List Interval)
deriving DecidableEq

structure Criterion where
  names : List Text
  ranges : Ranges
  (state init : BitVec 32)
deriving DecidableEq

inductive Ret
  | ok
  | einval
  | eperm
deriving DecidableEq

def emptyLiteral : Text := chars ['<', 'n', 'o', 'n', 'e', '>']

def delim : UInt8 := 124

variable (t : Target) (ranges : Ranges) (c : Criterion) (literals : List Text)

/-- The words of a mask's literal, each the index of a bit. -/
def mask (words : List Text) : Option (BitVec 32) :=
  words.foldlM (fun m word => (literals.findIdx? (· == word)).map (m ||| BitVec.twoPow 32 ·)) 0

def atoi (value : Text) : Option (BitVec 32) :=
  match ranges with
  | .numerical _ => some (.ofInt 32 (strtol t value))
  | .exclusive literals _ => (literals.findIdx? (· == value)).map (.ofNat 32 ·)
  | .inclusive literals _ =>
    if value = emptyLiteral then some 0
    -- the text is copied to an array of 256 bytes first
    else mask literals (tokens (· == delim) (value.take 255))

/-- The literals of the bits of a mask, up to the first bit that has none. -/
def maskLiterals (literals : List Text) (state : BitVec 32) : List Nat → List Text
  | [] => []
  | i :: is =>
    if state.getLsbD i then
      match literals[i]? with
      | some str => str :: maskLiterals literals state is
      | none => []
    else maskLiterals literals state is

/-- `pfw_criterion_itoa`, before the text is cut to the size of the buffer; `none` for `-EINVAL`. -/
def itoa (state : BitVec 32) : Option Text :=
  match ranges with
  | .numerical _ => none
  | .exclusive literals _ => if 0 ≤ state.toInt then literals[state.toInt.toNat]? else none
  | .inclusive literals _ =>
    if state = 0 then some emptyLiteral
    else some (([delim] : Text).intercalate (maskLiterals literals state (List.range 31)))

def checkInteger (state : BitVec 32) : Bool :=
  match ranges with
  | .numerical intervals => intervals.any fun itv => itv.Has state.toInt
  | ranges => (itoa ranges state).isSome

def adjustInclusive (value : Text) (incl : Bool) : Ret × BitVec 32 :=
  match c.ranges with
  | .inclusive .. =>
    match atoi t c.ranges value with
    | none => (.einval, c.state)
    | some state => (.ok, if incl then c.state ||| state else c.state &&& ~~~state)
  | _ => (.eperm, c.state)

def adjustNumerical (increase : Bool) : Ret × BitVec 32 :=
  match c.ranges with
  | .numerical _ =>
    let state := if increase then c.state + 1 else c.state - 1
    if checkInteger c.ranges state then (.ok, state) else (.einval, c.state)
  | _ => (.eperm, c.state)

inductive Op
  | setint (value : BitVec 32)
  | setstring (value : Text)
  | includes (value : Text)
  | excludes (value : Text)
  | increase
  | decrease
  | reset

def Op.run : Op → Ret × BitVec 32
  | .setint value => if checkInteger c.ranges value then (.ok, value) else (.einval, c.state)
  -- `pfw_setstring` returns 0 also when the conversion fails
  | .setstring value => (.ok, (atoi t c.ranges value).getD c.state)
  | .includes value => adjustInclusive t c value true
  | .excludes value => adjustInclusive t c value false
  | .increase => adjustNumerical c true
  | .decrease => adjustNumerical c false
  | .reset => (.ok, c.init)

structure Call where
  name : Text
  op : Op

def find (criteria : List Criterion) (name : Text) : Option Criterion := criteria.find? (name ∈ ·.names)

def adjust (name : Text) (f : Criterion → Criterion) : List Criterion → List Criterion
  | [] => []
  | c :: criteria => if name ∈ c.names then f c :: criteria else c :: adjust name f criteria

def Op.after (op : Op) (c : Criterion) : Criterion := { c with state := (op.run t c).2 }

/-- The criteria after a call; a name that no criterion has changes nothing. -/
def call (criteria : List Criterion) (a : Call) : List Criterion :=
  adjust a.name (a.op.after t) criteria

def Declared (m : BitVec 32) : Prop := ∀ i < 32, m.getLsbD i → i < literals.length

instance (literals : List Text) (m : BitVec 32) : Decidable (Declared literals m) :=
  inferInstanceAs (Decidable (∀ i < 32, m.getLsbD i → i < literals.length))

def Ranges.Holds : Ranges → BitVec 32 → Prop
  | .exclusive literals _, state => 0 ≤ state.toInt ∧ state.toInt < literals.length
  | .inclusive literals _, state => Declared literals state
  | .numerical intervals, state => ∃ itv ∈ intervals, itv.Has state.toInt

instance : ∀ (ranges : Ranges) (state : BitVec 32), Decidable (ranges.Holds state)
  | .exclusive .., _ => inferInstanceAs (Decidable (_ ∧ _))
  | .inclusive literals _, state => inferInstanceAs (Decidable (Declared literals state))
  | .numerical intervals, state => inferInstanceAs (Decidable (∃ itv ∈ intervals, itv.Has state.toInt))

def Criterion.InRange : Prop := c.ranges.Holds c.state

instance (c : Criterion) : Decidable c.InRange := inferInstanceAs (Decidable (c.ranges.Holds c.state))

def maskOf (value : Text) : Option (BitVec 32) :=
  if value = emptyLiteral then some 0 else mask literals (tokens (· == delim) value)

def Op.denotes : Op → Option Int
  | .setint value => some value.toInt
  | .setstring value =>
    match c.ranges with
    | .numerical _ => some (number value)
    | .exclusive literals _ => (literals.findIdx? (· == value)).map (↑)
    | .inclusive literals _ => (maskOf literals value).map BitVec.toInt
  | .includes value =>
    match c.ranges with
    | .inclusive literals _ => (maskOf literals value).map fun m => (c.state ||| m).toInt
    | _ => none
  | .excludes value =>
    match c.ranges with
    | .inclusive literals _ => (maskOf literals value).map fun m => (c.state &&& ~~~m).toInt
    | _ => none
  | .increase => some (c.state.toInt + 1)
  | .decrease => some (c.state.toInt - 1)
  | .reset => some c.init.toInt

/-- A call leaves a state of the criterion, the one that is denoted if it returns 0, and the old one if not. -/
structure Op.Sound (t : Target) (c : Criterion) (op : Op) : Prop where
  inRange : c.ranges.Holds (op.run t c).2
  ok : (op.run t c).1 = .ok → op.denotes c = some (op.run t c).2.toInt
  error : (op.run t c).1 ≠ .ok → (op.run t c).2 = c.state

/-- A call leaves every criterion in range, and does to the one that it names what it is for. -/
def Sound (t : Target) (criteria : List Criterion) (a : Call) : Prop :=
  (∀ c ∈ call t criteria a, c.InRange) ∧ ∀ c, find criteria a.name = some c → a.op.Sound t c

/-- The text of a mask is read by its first 255 bytes. -/
def Op.Fine : Op → Prop
  | .setint value =>
    match c.ranges with
    | .inclusive literals _ => Declared literals value
    | _ => True
  | .setstring value =>
    match c.ranges with
    | .numerical intervals => ∃ itv ∈ intervals, itv.Has (number value)
    | .exclusive literals _ => value ∈ literals
    | .inclusive literals _ => maskOf literals value = some ((maskOf literals (value.take 255)).getD c.state)
  | .includes value =>
    match c.ranges with
    | .inclusive literals _ => ∀ m, maskOf literals (value.take 255) = some m →
        ∃ m', maskOf literals value = some m' ∧ c.state ||| m' = c.state ||| m
    | _ => True
  | .excludes value =>
    match c.ranges with
    | .inclusive literals _ => ∀ m, maskOf literals (value.take 255) = some m →
        ∃ m', maskOf literals value = some m' ∧ c.state &&& ~~~m' = c.state &&& ~~~m
    | _ => True
  | .increase =>
    match c.ranges with
    | .numerical intervals => c.state.toInt = 2 ^ 31 - 1 → ∀ itv ∈ intervals, ¬itv.Has (-2 ^ 31)
    | _ => True
  | .decrease =>
    match c.ranges with
    | .numerical intervals => c.state.toInt = -2 ^ 31 → ∀ itv ∈ intervals, ¬itv.Has (2 ^ 31 - 1)
    | _ => True
  | .reset => True

def Fine (criteria : List Criterion) (a : Call) : Prop := ∀ c, find criteria a.name = some c → a.op.Fine c

variable {value : Text} {literals : List Text} {fits : literals.length ≤ 32}

section Masks

variable {m m' : BitVec 32}

theorem declared_zero : Declared literals 0 := fun i _ h => by simp at h

theorem Declared.or (h : Declared literals m) (h' : Declared literals m') : Declared literals (m ||| m') := by
  intro i hi hbit
  rcases (Bool.or_eq_true _ _).mp (BitVec.getLsbD_or ▸ hbit) with hbit | hbit
  · exact h i hi hbit
  · exact h' i hi hbit

theorem Declared.and (h : Declared literals m) (m' : BitVec 32) : Declared literals (m &&& m') := by
  intro i hi hbit
  exact h i hi ((Bool.and_eq_true _ _).mp (BitVec.getLsbD_and ▸ hbit)).1

theorem lt_of_findIdx? {i : Nat} (h : literals.findIdx? (· == value) = some i) : i < literals.length :=
  (findIdx?_eq_some_iff_getElem.mp h).1

theorem mem_iff_findIdx? : value ∈ literals ↔ (literals.findIdx? (· == value)).isSome := by
  simp [findIdx?_isSome]

/-- Each word of a mask is a literal, and has the bit of its index. -/
theorem mask_eq_some_iff {words : List Text} : mask literals words = some m ↔
    (∀ word ∈ words, word ∈ literals) ∧
      ∀ k < 32, m.getLsbD k ↔ ∃ word ∈ words, literals.findIdx? (· == word) = some k := by
  suffices ∀ m₀ : BitVec 32,
      words.foldlM (fun m word => (literals.findIdx? (· == word)).map (m ||| BitVec.twoPow 32 ·)) m₀ = some m ↔
        (∀ word ∈ words, word ∈ literals) ∧ ∀ k < 32, m.getLsbD k ↔
          m₀.getLsbD k ∨ ∃ word ∈ words, literals.findIdx? (· == word) = some k by
    simpa [mask] using this 0
  induction words with
  | nil =>
    refine fun m₀ => ⟨fun h => ?_, fun h => congrArg some (BitVec.eq_of_getLsbD_eq fun k hk => ?_)⟩
    · obtain rfl := some.inj h
      simp
    · rw [Bool.eq_iff_iff, h.2 k hk]
      simp
  | cons word words ih =>
    intro m₀
    have hword : word ∈ literals ↔ _ := mem_iff_findIdx?
    rw [foldlM_cons]
    cases hfind : literals.findIdx? (· == word) <;> rw [hfind] at hword
    case none => simp [hword]
    case some i =>
      refine (ih _).trans (and_congr (by simp [hword]) (forall₂_congr fun k hk => ?_))
      have hpow : (BitVec.twoPow 32 i).getLsbD k ↔ i = k := by
        simpa using fun h => h ▸ hk
      simp [hpow, hfind, -BitVec.getLsbD_twoPow]
      tauto

theorem declared_mask {words : List Text} (h : mask literals words = some m) : Declared literals m := by
  intro i hi hbit
  obtain ⟨word, -, hfind⟩ := ((mask_eq_some_iff.mp h).2 i hi).mp hbit
  exact lt_of_findIdx? hfind

theorem atoi_inclusive (t : Target) : atoi t (.inclusive literals fits) value = maskOf literals (value.take 255) := by
  have hcut : value.take 255 = emptyLiteral ↔ value = emptyLiteral := by
    refine ⟨fun h => ?_, fun h => by rw [h]; rfl⟩
    have hlen : min 255 value.length = 6 := length_take ▸ congrArg length h
    rw [← h, take_of_length_le (by omega)]
  simp only [atoi, maskOf, hcut]

theorem declared_atoi {t : Target} (h : atoi t (.inclusive literals fits) value = some m) : Declared literals m := by
  simp only [atoi] at h
  split_ifs at h
  · exact some.inj h ▸ declared_zero
  · exact declared_mask h

end Masks

section Calls

variable {t : Target} {c : Criterion} {op : Op}

theorem Op.sound_of_error {e : Ret} (h : op.run t c = (e, c.state)) (he : e ≠ .ok) (hc : c.InRange) : op.Sound t c where
  inRange := by rw [h]; exact hc
  ok hok := absurd (by rw [h] at hok; exact hok) he
  error _ := by rw [h]

theorem Op.sound_iff_of_eperm (h : op.run t c = (.eperm, c.state)) (hfine : op.Fine c) (hc : c.InRange) :
    op.Sound t c ↔ op.Fine c :=
  iff_of_true (Op.sound_of_error h (show Ret.eperm ≠ .ok by decide) hc) hfine

variable {v : BitVec 32}

theorem Op.sound_ok_iff (h : op.run t c = (.ok, v)) :
    op.Sound t c ↔ c.ranges.Holds v ∧ op.denotes c = some v.toInt := by
  refine ⟨fun hs => ?_, fun hs => ⟨?_, ?_, ?_⟩⟩
  · have hr := hs.inRange
    have hd := hs.ok
    rw [h] at hr hd
    exact ⟨hr, hd rfl⟩
  · rw [h]; exact hs.1
  · rw [h]; exact fun _ => hs.2
  · rw [h]; exact fun hne => absurd rfl hne

variable {intervals : List Interval}

theorem checkInteger_numerical : checkInteger (.numerical intervals) v ↔ (Ranges.numerical intervals).Holds v := by
  simp [checkInteger, Ranges.Holds]

theorem checkInteger_exclusive {fits : literals.length ≤ 128} :
    checkInteger (.exclusive literals fits) v ↔ (Ranges.exclusive literals fits).Holds v := by
  simp only [checkInteger, itoa, Ranges.Holds]
  split_ifs with h₀
  · simp only [isSome_getElem?]
    omega
  · simp [h₀]

theorem checkInteger_inclusive : checkInteger (.inclusive literals fits) v = true := by
  simp only [checkInteger, itoa]
  split_ifs <;> rfl

theorem setint_sound (hc : c.InRange) (h : checkInteger c.ranges v → c.ranges.Holds v) : (Op.setint v).Sound t c := by
  by_cases hv : checkInteger c.ranges v
  · exact (Op.sound_ok_iff (by rw [Op.run, if_pos hv])).mpr ⟨h hv, rfl⟩
  · exact Op.sound_of_error (by rw [Op.run, if_neg hv]) (show Ret.einval ≠ .ok by decide) hc

theorem setint_sound_iff (hc : c.InRange) : (Op.setint v).Sound t c ↔ (Op.setint v).Fine c := by
  obtain ⟨names, ranges, state, init⟩ := c
  cases ranges with
  | exclusive literals fits =>
    exact iff_of_true (setint_sound hc checkInteger_exclusive.mp) trivial
  | numerical intervals =>
    exact iff_of_true (setint_sound hc checkInteger_numerical.mp) trivial
  | inclusive literals fits =>
    rw [Op.sound_ok_iff (by rw [Op.run, if_pos checkInteger_inclusive])]
    exact and_iff_left rfl

theorem toInt_index {i : Nat} (hi : i < 128) : (BitVec.ofNat 32 i).toInt = i := by
  rw [BitVec.toInt_ofNat', Int.bmod_eq_of_le] <;> omega

theorem map_toInt_eq_iff {o : Option (BitVec 32)} : o.map BitVec.toInt = some v.toInt ↔ o = some v := by
  cases o <;> simp [BitVec.toInt_inj]

theorem setstring_exclusive_iff {fits : literals.length ≤ 128}
    (hranges : c.ranges = .exclusive literals fits) : (Op.setstring value).Sound t c ↔ value ∈ literals := by
  rw [Op.sound_ok_iff rfl, mem_iff_findIdx?]
  simp only [Op.denotes, atoi, Ranges.Holds, hranges]
  cases hfind : literals.findIdx? (· == value) with
  | none => simp
  | some i =>
    have hi := lt_of_findIdx? hfind
    simp only [map_some, getD_some, toInt_index (lt_of_lt_of_le hi fits), isSome_some, and_true, iff_true]
    omega

theorem setstring_numerical_iff (hranges : c.ranges = .numerical intervals) :
    (Op.setstring value).Sound t c ↔ ∃ itv ∈ intervals, itv.Has (number value) := by
  rw [Op.sound_ok_iff rfl]
  simp only [Op.denotes, atoi, Ranges.Holds, hranges, getD_some, some.injEq]
  refine ⟨fun ⟨⟨itv, hmem, hhas⟩, hnum⟩ => ⟨itv, hmem, hnum ▸ hhas⟩, fun ⟨itv, hmem, hhas⟩ => ?_⟩
  -- a number of an interval fits, so neither `strtol` nor the assignment changes it
  have hfits : -2 ^ 31 ≤ number value ∧ number value < 2 ^ 31 := by
    have := itv.left.le_toInt
    have := itv.right.toInt_lt
    unfold Interval.Has at hhas
    omega
  have hint : (BitVec.ofInt 32 (strtol t value)).toInt = number value := by
    rw [strtol_eq t hfits, BitVec.toInt_ofInt, Int.bmod_eq_of_le] <;> omega
  rw [hint]
  exact ⟨⟨itv, hmem, hhas⟩, rfl⟩

theorem setstring_inclusive_iff (hranges : c.ranges = .inclusive literals fits) (hc : c.InRange) :
    (Op.setstring value).Sound t c ↔
      maskOf literals value = some ((maskOf literals (value.take 255)).getD c.state) := by
  have hholds : c.ranges.Holds ((atoi t c.ranges value).getD c.state) := by
    cases hatoi : atoi t c.ranges value with
    | none => exact hc
    | some m =>
      rw [hranges] at hatoi ⊢
      exact declared_atoi hatoi
  rw [Op.sound_ok_iff rfl, and_iff_right hholds]
  simp only [Op.denotes, hranges, atoi_inclusive]
  exact map_toInt_eq_iff

theorem setstring_sound_iff (hc : c.InRange) : (Op.setstring value).Sound t c ↔ (Op.setstring value).Fine c := by
  cases hranges : c.ranges with
  | exclusive literals fits => simp only [setstring_exclusive_iff hranges, Op.Fine, hranges]
  | numerical intervals => simp only [setstring_numerical_iff hranges, Op.Fine, hranges]
  | inclusive literals fits => simp only [setstring_inclusive_iff hranges hc, Op.Fine, hranges]

theorem adjustInclusive_sound_iff {incl : Bool}
    {f : BitVec 32 → BitVec 32} (hranges : c.ranges = .inclusive literals fits) (hc : c.InRange)
    (hrun : op.run t c = adjustInclusive t c value incl)
    (hf : ∀ m, f m = if incl then c.state ||| m else c.state &&& ~~~m)
    (hdenotes : op.denotes c = (maskOf literals value).map fun m => (f m).toInt) :
    op.Sound t c ↔ ∀ m, maskOf literals (value.take 255) = some m →
      ∃ m', maskOf literals value = some m' ∧ f m' = f m := by
  have hcut : atoi t c.ranges value = maskOf literals (value.take 255) := by rw [hranges, atoi_inclusive]
  rw [← hcut]
  cases hatoi : atoi t c.ranges value with
  | none =>
    refine iff_of_true (Op.sound_of_error ?_ (show Ret.einval ≠ .ok by decide) hc) (by simp)
    simp only [hrun, adjustInclusive, hranges, hranges ▸ hatoi]
  | some m =>
    have hholds : c.ranges.Holds (f m) := by
      have hm := declared_atoi (hranges ▸ hatoi)
      have hstate : Declared literals c.state := by
        unfold Criterion.InRange at hc
        rwa [hranges] at hc
      rw [hranges, hf]
      cases incl
      · exact hstate.and _
      · exact hstate.or hm
    rw [Op.sound_ok_iff (show op.run t c = (.ok, f m) by
      simp only [hrun, adjustInclusive, hranges, hranges ▸ hatoi, hf])]
    simp [hholds, hdenotes, BitVec.toInt_inj]

theorem adjustNumerical_sound_iff {increase : Bool}
    (hranges : c.ranges = .numerical intervals) (hc : c.InRange) (hrun : op.run t c = adjustNumerical c increase)
    (hv : v = if increase then c.state + 1 else c.state - 1) :
    op.Sound t c ↔ ((∃ itv ∈ intervals, itv.Has v.toInt) → op.denotes c = some v.toInt) := by
  have hcheck : checkInteger c.ranges v ↔ ∃ itv ∈ intervals, itv.Has v.toInt := by
    rw [hranges]
    exact checkInteger_numerical
  by_cases h : ∃ itv ∈ intervals, itv.Has v.toInt
  · rw [Op.sound_ok_iff (show op.run t c = (.ok, v) by
      simp only [hrun, adjustNumerical, hranges, ← hv, if_pos (hranges ▸ hcheck.mpr h)])]
    simp [h, hranges, Ranges.Holds]
  · refine iff_of_true (Op.sound_of_error ?_ (show Ret.einval ≠ .ok by decide) hc) fun h' => absurd h' h
    simp only [hrun, adjustNumerical, hranges, ← hv]
    exact if_neg fun h' => h (hcheck.mp (hranges ▸ h'))

theorem toInt_add_one (v : BitVec 32) : (v + 1).toInt = if v.toInt = 2 ^ 31 - 1 then -2 ^ 31 else v.toInt + 1 := by
  have := v.le_toInt
  have := v.toInt_lt
  rw [BitVec.toInt_add, show (1 : BitVec 32).toInt = 1 by decide]
  split_ifs with h
  · rw [h]
    decide
  · rw [Int.bmod_eq_of_le] <;> omega

theorem toInt_sub_one (v : BitVec 32) : (v - 1).toInt = if v.toInt = -2 ^ 31 then 2 ^ 31 - 1 else v.toInt - 1 := by
  have hnext := toInt_add_one (v - 1)
  have := (v - 1).le_toInt
  rw [BitVec.sub_add_cancel] at hnext
  split_ifs at hnext ⊢ <;> omega

theorem step_sound_iff (hop : op = .increase ∨ op = .decrease) (hc : c.InRange) : op.Sound t c ↔ op.Fine c := by
  cases hranges : c.ranges with
  | numerical intervals =>
    rcases hop with rfl | rfl <;> rw [adjustNumerical_sound_iff hranges hc rfl rfl] <;>
      simp only [Op.denotes, Op.Fine, hranges, if_true, Bool.false_eq_true, if_false, toInt_add_one, toInt_sub_one,
        some.injEq] <;>
      split_ifs with h
    all_goals first | exact iff_of_true (fun _ => rfl) fun h' => absurd h' h | simp [h]
  | _ =>
    rcases hop with rfl | rfl <;>
      exact Op.sound_iff_of_eperm (by simp only [Op.run, adjustNumerical, hranges]) (by simp only [Op.Fine, hranges]) hc

theorem adjust_sound_iff (hop : op = .includes value ∨ op = .excludes value) (hc : c.InRange) :
    op.Sound t c ↔ op.Fine c := by
  cases hranges : c.ranges with
  | inclusive literals fits =>
    rcases hop with rfl | rfl <;>
      rw [adjustInclusive_sound_iff hranges hc rfl (fun _ => rfl) (by simp only [Op.denotes, hranges]; rfl)] <;>
      simp only [Op.Fine, hranges, if_true, Bool.false_eq_true, if_false]
  | _ =>
    rcases hop with rfl | rfl <;>
      exact Op.sound_iff_of_eperm (by simp only [Op.run, adjustInclusive, hranges]) (by simp only [Op.Fine, hranges]) hc

structure Criterion.Valid (c : Criterion) : Prop where
  state : c.InRange
  init : c.ranges.Holds c.init

theorem run_sound_iff (h : c.Valid) : op.Sound t c ↔ op.Fine c := by
  cases op with
  | setint v => exact setint_sound_iff h.state
  | setstring value => exact setstring_sound_iff h.state
  | includes value => exact adjust_sound_iff (.inl rfl) h.state
  | excludes value => exact adjust_sound_iff (.inr rfl) h.state
  | increase => exact step_sound_iff (.inl rfl) h.state
  | decrease => exact step_sound_iff (.inr rfl) h.state
  | reset =>
    rw [Op.sound_ok_iff rfl]
    exact iff_of_true ⟨h.init, rfl⟩ trivial

end Calls

section Sequences

variable {t : Target} {criteria : List Criterion} {a : Call} {name : Text} {f : Criterion → Criterion}

theorem forall_mem_adjust_iff {P : Criterion → Prop} (h : ∀ c ∈ criteria, P c) :
    (∀ c ∈ adjust name f criteria, P c) ↔ ∀ c, find criteria name = some c → P (f c) := by
  induction criteria with
  | nil => simp [adjust, find]
  | cons c criteria ih =>
    rw [forall_mem_cons] at h
    by_cases hn : name ∈ c.names
    · simpa [adjust, find, hn] using fun _ => h.2
    · simpa [adjust, find, hn, h.1] using ih h.2

theorem sound_iff (h : ∀ c ∈ criteria, c.Valid) : Sound t criteria a ↔ Fine criteria a := by
  unfold Sound call
  rw [forall_mem_adjust_iff fun c hc => (h c hc).state]
  constructor
  · intro hs c hc
    exact (run_sound_iff (h c (mem_of_find?_eq_some hc))).mp (hs.2 c hc)
  · intro hs
    have hsound c (hc : find criteria a.name = some c) : a.op.Sound t c :=
      (run_sound_iff (h c (mem_of_find?_eq_some hc))).mpr (hs c hc)
    exact ⟨fun c hc => (hsound c hc).inRange, hsound⟩

theorem valid_call (h : ∀ c ∈ criteria, c.Valid) (hs : Sound t criteria a) : ∀ c ∈ call t criteria a, c.Valid :=
  (forall_mem_adjust_iff h).mpr fun c hc =>
    ⟨(hs.2 c hc).inRange, show c.ranges.Holds c.init from (h c (mem_of_find?_eq_some hc)).init⟩

/-- Every call leaves every criterion in range, a call that returns 0 has set the state to the denoted value and one
that returns an error has left it, exactly if every call is `Fine`. -/
theorem in_range_iff (t : Target) (criteria : List Criterion) (calls : List Call)
    (hstart : ∀ c ∈ criteria, c.InRange ∧ c.state = c.init) :
    Guarded (call t) (Sound t) criteria calls ↔ Guarded (call t) Fine criteria calls := by
  refine guarded_iff (fun _ _ => valid_call) (fun _ _ => sound_iff) fun c hc => ?_
  obtain ⟨hrange, heq⟩ := hstart c hc
  exact ⟨hrange, heq ▸ hrange⟩

theorem length_literals_le : [chars ['a'], chars ['b']].length ≤ 128 := by decide

theorem length_masks_le : [chars ['a'], chars ['b']].length ≤ 32 := by decide

def threeCriteria : List Criterion :=
  [⟨[chars ['v']], .numerical [⟨0, 10⟩], 0, 0⟩,
    ⟨[chars ['r']], .exclusive [chars ['a'], chars ['b']] length_literals_le, 0, 0⟩,
    ⟨[chars ['d']], .inclusive [chars ['a'], chars ['b']] length_masks_le, 0, 0⟩]

theorem in_range_threeCriteria :
    Guarded (call .bits32) (Sound .bits32) threeCriteria
      [⟨chars ['v'], .setint 7⟩, ⟨chars ['d'], .reset⟩, ⟨chars ['r'], .setstring (chars ['b'])⟩] := by
  refine (in_range_iff .bits32 threeCriteria _ (by decide)).mpr
    ⟨fun c hc => ?_, fun c hc => ?_, fun c hc => ?_, trivial⟩
  · obtain rfl := some.inj hc
    trivial
  · obtain rfl := some.inj hc
    trivial
  · obtain rfl := some.inj hc
    exact show chars ['b'] ∈ [chars ['a'], chars ['b']] by decide

/-- A number outside the interval is stored by its text, a mask with an undeclared bit by its value, and a literal that
is not declared is refused with the return value 0. -/
theorem stored_out_of_range :
    (∀ c ∈ threeCriteria, c.InRange ∧ c.state = c.init) ∧
      ¬Guarded (call .bits32) (Sound .bits32) threeCriteria [⟨chars ['v'], .setstring (chars ['2', '0'])⟩] ∧
        ¬Guarded (call .bits32) (Sound .bits32) threeCriteria [⟨chars ['d'], .setint 4⟩] ∧
          ¬Guarded (call .bits32) (Sound .bits32) threeCriteria [⟨chars ['r'], .setstring (chars ['c'])⟩] := by
  refine ⟨by decide, fun h => ?_, fun h => ?_, fun h => ?_⟩
  · exact absurd (h.1.2 _ rfl).inRange (by decide)
  · exact absurd (h.1.2 _ rfl).inRange (by decide)
  · exact absurd ((h.1.2 _ rfl).ok rfl) (by decide)

end Sequences

end NuttxApps.Pfw
