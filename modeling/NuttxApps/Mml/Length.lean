import NuttxApps.Framework.Libc
import Mathlib.Algebra.Order.BigOperators.Group.List
import Mathlib.Algebra.Order.Ring.Int
import Mathlib.Data.List.DropRight

/-!
# Lengths of the music macro language

`sample_length` reads a length such as `4.+16` behind a note and returns it in samples. An `int` that overflows wraps,
and `none` stands for a division by a tempo of zero. The loop keeps the dots of one term for the next one, and a tied
term that lasts no sample takes the terms before it away (`tied_length_iff`).
-/

namespace NuttxApps.Mml

open Libc CString List Option

abbrev Score := List UInt8

inductive State
  | normal
  | tuplet
deriving DecidableEq, Repr

structure MusicMacroLang where
  (curTempo curOctave defLength fs : Int)
  state : State
  (curTuplet tupletNotes tupletLength : Int)
deriving DecidableEq, Repr

def negEINVAL : Int := -22

/-- What an `int` holds of a number. -/
def wrap (n : Int) : Int := n.bmod (2 ^ 32)

/-- The shifts `n` and `div` that `calc_samples` takes for a number; `none` for `div = -1`. -/
def shifts (num : Int) : Option (Nat × Nat) :=
  if num = 0 then some (3, 0)
  else if num = 1 then some (2, 0)
  else if num = 2 then some (1, 0)
  else if num = 4 then some (0, 0)
  else if num = 8 then some (0, 1)
  else if num = 16 then some (0, 2)
  else if num = 32 then some (0, 3)
  else if num = 64 then some (0, 4)
  else none

def dotsMul (mul : Int) : Nat → Int
  | 0 => mul
  | dots + 1 => dotsMul (mul + 2 ^ (4 - (dots + 1))) dots

/-- `calc_samples`; the right shift is a division that rounds down. -/
def calcSamples (fs tempo num : Int) (dots : Nat) : Option Int :=
  match shifts num with
  | none => some negEINVAL
  | some (n, div) =>
    if 4 < dots then some negEINVAL
    else if tempo = 0 then none
    else some ((wrap (15 * fs * dotsMul 16 dots * 2 ^ n) / 2 ^ (2 + div)).tdiv tempo)

variable (τ : Target) (mml : MusicMacroLang)

def getSamples (samples num : Int) (dots : Nat) (plusMode : Bool) : Option Int :=
  (calcSamples mml.fs mml.curTempo (if num < 0 then mml.defLength else num) dots).map fun len =>
    if 0 < len then if plusMode then wrap (samples + len) else len else len

def isQualifire (c : UInt8) : Bool := isdigit c || c == 46

inductive LengthState
  | idle
  | numberd
  | plus
deriving DecidableEq, Repr

structure LengthVars where
  dots : Nat
  samples : Int
  state : LengthState
  (plusMode parsing : Bool)
  num : Int
  score : Score
deriving DecidableEq, Repr

variable (v : LengthVars)

/-- `LENGTH_STATE_IDLE`, which falls through to the next case. -/
def idleCase : Option LengthVars :=
  if v.score.head?.any isdigit then
    some { v with num := (atoi τ v.score).toInt, score := v.score.dropWhile isdigit, state := .numberd }
  else if v.score.head? = some 46 then
    some { v with state := .numberd, dots := v.dots + 1, score := v.score.tail }
  else (getSamples mml v.samples v.num v.dots v.plusMode).map fun samples =>
    { v with samples, parsing := false }

def numberdCase : Option LengthVars :=
  if v.score.head? = some 46 then
    some { v with dots := v.dots + 1, score := v.score.tail }
  else if v.score.head? = some 43 then
    (getSamples mml v.samples v.num v.dots v.plusMode).map fun samples =>
      { v with samples, parsing := v.parsing && !(samples < 0), plusMode := true, num := -1,
               score := v.score.tail, state := .plus }
  else (getSamples mml v.samples v.num v.dots v.plusMode).map fun samples =>
    { v with samples, parsing := false }

def plusCase : LengthVars :=
  if v.score.head?.any isdigit then
    { v with num := (atoi τ v.score).toInt, score := v.score.dropWhile isdigit, state := .numberd }
  else { v with samples := negEINVAL, parsing := false }

def lengthBody : Option LengthVars :=
  match v.state with
  | .idle => (idleCase τ mml v).bind (numberdCase mml)
  | .numberd => numberdCase mml v
  | .plus => some (plusCase τ v)

def lengthLoop (τ : Target) (mml : MusicMacroLang) : Nat → LengthVars → Option LengthVars
  | 0, v => some v
  | fuel + 1, v => if v.parsing then (lengthBody τ mml v).bind (lengthLoop τ mml fuel) else some v

/-- `sample_length`: the samples, and the score behind the length. -/
def sampleLength (score : Score) : Option (Int × Score) :=
  (getSamples mml 0 (-1) 0 false).bind fun samples =>
    if score.head?.any isQualifire then
      (lengthLoop τ mml (score.length + 1) ⟨0, samples, .idle, false, true, -1, score⟩).map fun v =>
        (v.samples, v.score)
    else some (samples, score)

/-- Digits of a number that fits an `int`. -/
structure Number where
  digits : Score
  digits_ne_nil : digits ≠ []
  isdigit_of_mem : ∀ c ∈ digits, isdigit c = true
  digitsVal_lt : digitsVal digits < 2 ^ 31

def Number.val (n : Number) : Int := digitsVal n.digits

structure NoteNumber extends Number where
  shifts_isSome : (shifts toNumber.val).isSome = true

structure Term where
  number : NoteNumber
  dots : Nat
  dots_le : dots ≤ 4

def tiedText : List Term → Score
  | [] => []
  | t :: ts => 43 :: (t.number.digits ++ (replicate t.dots 46 ++ tiedText ts))

/-- A length: its first number may be left out where it has a dot. -/
structure LengthText where
  number : Option NoteNumber
  dots : Nat
  tied : List Term
  dots_le : dots ≤ 4
  dots_pos : number = none → 0 < dots

def LengthText.text (e : LengthText) : Score :=
  (e.number.elim [] (·.digits)) ++ (replicate e.dots 46 ++ tiedText e.tied)

/-- What follows does not go on with the last term, which has `dots` dots if no other is tied to it. -/
def Ends (rest : Score) (dots : Nat) : List Term → Prop
  | [] => rest.head? ≠ some 46 ∧ rest.head? ≠ some 43 ∧ (dots = 0 → rest.head?.any isdigit = false)
  | t :: ts => Ends rest t.dots ts

variable {rest : Score} {ts : List Term}

theorem Ends.mono {dots dots' : Nat} (h : Ends rest dots ts) (hle : dots ≤ dots') : Ends rest dots' ts := by
  cases ts with
  | nil => exact ⟨h.1, h.2.1, fun h0 => h.2.2 (by omega)⟩
  | cons t ts => exact h

variable (n : Number) {s : Score}

section

variable {τ : Target} {mml : MusicMacroLang}

theorem not_space_of_isdigit {c : UInt8} (h : isdigit c = true) : isspace c = false ∧ c ≠ 45 ∧ c ≠ 43 := by
  simp only [isdigit, Bool.and_eq_true, decide_eq_true_eq] at h
  simp only [isspace, Bool.or_eq_false_iff, beq_eq_false_iff_ne, Bool.and_eq_false_iff, decide_eq_false_iff_not]
  grind

theorem takeWhile_digits (hs : s.head?.any isdigit = false) :
    (n.digits ++ s).takeWhile isdigit = n.digits ∧ (n.digits ++ s).dropWhile isdigit = s := by
  rw [takeWhile_append_of_pos n.isdigit_of_mem, dropWhile_append_of_pos n.isdigit_of_mem]
  cases s with
  | nil => simp
  | cons c s =>
    have hc : isdigit c = false := by simpa using hs
    simp [hc]

theorem head?_digits (s : Score) : (n.digits ++ s).head?.any isdigit = true := by
  obtain ⟨c, ds, hds⟩ := exists_cons_of_ne_nil n.digits_ne_nil
  have hc := n.isdigit_of_mem c (by simp [hds])
  simp [hds, hc]

theorem atoi_digits (hs : s.head?.any isdigit = false) : (atoi τ (n.digits ++ s)).toInt = n.val := by
  have hsize := τ.le_size
  have hlt := n.digitsVal_lt
  obtain ⟨c, ds, hds⟩ := exists_cons_of_ne_nil n.digits_ne_nil
  obtain ⟨hsp, hneg, hpos⟩ := not_space_of_isdigit (n.isdigit_of_mem c (by simp [hds]))
  have hdrop : (n.digits ++ s).dropWhile isspace = n.digits ++ s := by simp [hds, hsp]
  have hhead : (n.digits ++ s).head? = some c := by simp [hds]
  have hatoi : atoi τ (n.digits ++ s) =
      .ofInt (max (-(τ.size / 2 : Nat)) (min ((τ.size / 2 : Nat) - 1) (digitsVal n.digits))) := by
    simp [atoi, hdrop, hhead, hneg, hpos, (takeWhile_digits n hs).1]
  rw [hatoi, Int32.toInt_ofInt_of_le (by omega) (by omega), Number.val]
  omega

theorem val_nonneg : 0 ≤ n.val := Int.natCast_nonneg _

variable {dots : Nat}

theorem head?_tied (h : Ends rest dots ts) :
    (tiedText ts ++ rest).head? ≠ some 46 ∧
      (replicate dots 46 ++ (tiedText ts ++ rest)).head?.any isdigit = false := by
  have hdot : isdigit 46 = false ∧ isdigit 43 = false := by decide
  cases ts with
  | nil =>
    obtain ⟨h₁, _, h₃⟩ := h
    cases dots with
    | zero => exact ⟨by simpa [tiedText] using h₁, by simpa [tiedText] using h₃ rfl⟩
    | succ d => exact ⟨by simpa [tiedText] using h₁, by simp [replicate_succ, hdot]⟩
  | cons t ts => cases dots <;> simp [tiedText, replicate_succ, hdot]

def samplesOf (mml : MusicMacroLang) (num : Int) (dots : Nat) : Int :=
  (calcSamples mml.fs mml.curTempo num dots).getD 0

/-- The sum with a tied term of length `len`, as `get_samples` takes it. -/
def tie (samples len : Int) : Int := if 0 < len then samples + len else len

/-- The sum as the loop takes it: every term has the dots so far. -/
def addTied (mml : MusicMacroLang) (samples : Int) (dots : Nat) : List Term → Int
  | [] => samples
  | t :: ts => addTied mml (tie samples (samplesOf mml t.number.val (dots + t.dots))) (dots + t.dots) ts

def dotsOf (ts : List Term) : Nat := (ts.map (·.dots)).sum

/-- A sampling rate for which the products of `calc_samples` are in range, whatever the number and the dots are. -/
def Rate (fs : Int) : Prop := 0 < fs ∧ 15 * fs * 31 * 2 ^ 3 < 2 ^ 31

instance (fs : Int) : Decidable (Rate fs) := inferInstanceAs (Decidable (_ ∧ _))

theorem shifts_le {num : Int} {n div : Nat} (h : shifts num = some (n, div)) : n ≤ 3 := by
  unfold shifts at h
  grind

theorem dotsMul_mono : ∀ d ≤ 4, ∀ d' ≤ d, 0 ≤ dotsMul 16 d' ∧ dotsMul 16 d' ≤ dotsMul 16 d ∧ dotsMul 16 d ≤ 31 := by
  decide

section Samples

variable (hfs : Rate mml.fs) (htempo : 0 < mml.curTempo)

include htempo in
theorem calcSamples_of_le (num : Int) (hdots : dots ≤ 4) :
    calcSamples mml.fs mml.curTempo num dots = some (samplesOf mml num dots) := by
  unfold samplesOf calcSamples
  cases shifts num with
  | none => rfl
  | some p => simp [show ¬ 4 < dots by omega, show mml.curTempo ≠ 0 by omega]

theorem calcSamples_of_lt (num : Int) (hdots : 4 < dots) :
    calcSamples mml.fs mml.curTempo num dots = some negEINVAL := by
  unfold calcSamples
  cases shifts num with
  | none => rfl
  | some p => simp [hdots]

include hfs htempo in
theorem samplesOf_eq {num : Int} {n div : Nat} (hnum : shifts num = some (n, div)) (hdots : dots ≤ 4) :
    samplesOf mml num dots = 15 * mml.fs * dotsMul 16 dots * 2 ^ n / 2 ^ (2 + div) / mml.curTempo ∧
      0 ≤ 15 * mml.fs * dotsMul 16 dots * 2 ^ n ∧ 15 * mml.fs * dotsMul 16 dots * 2 ^ n < 2 ^ 31 := by
  obtain ⟨hpos, hlt⟩ := hfs
  obtain ⟨hmul, -, hmul'⟩ := dotsMul_mono dots hdots dots le_rfl
  have hpow : (0 : Int) ≤ 2 ^ n ∧ (2 : Int) ^ n ≤ 2 ^ 3 :=
    ⟨Int.pow_nonneg (by decide), pow_le_pow_right₀ (by decide) (shifts_le hnum)⟩
  have hnonneg : 0 ≤ 15 * mml.fs * dotsMul 16 dots * 2 ^ n :=
    Int.mul_nonneg (Int.mul_nonneg (by omega) hmul) hpow.1
  have hle : 15 * mml.fs * dotsMul 16 dots * 2 ^ n ≤ 15 * mml.fs * 31 * 2 ^ 3 :=
    Int.mul_le_mul (Int.mul_le_mul_of_nonneg_left hmul' (by omega)) hpow.2 hpow.1 (by omega)
  refine ⟨?_, hnonneg, by omega⟩
  simp only [samplesOf, calcSamples, hnum, show ¬ 4 < dots by omega, show mml.curTempo ≠ 0 by omega, if_false,
    getD_some]
  rw [wrap, Int.bmod_eq_of_le (by omega) (by omega),
    Int.tdiv_eq_ediv_of_nonneg (Int.ediv_nonneg hnonneg (Int.pow_nonneg (by decide)))]

include hfs htempo in
theorem samplesOf_range {num : Int} (hnum : (shifts num).isSome = true) (hdots : dots ≤ 4) :
    0 ≤ samplesOf mml num dots ∧ samplesOf mml num dots < 2 ^ 31 := by
  obtain ⟨⟨n, div⟩, h⟩ := isSome_iff_exists.mp hnum
  obtain ⟨heq, hnonneg, hlt⟩ := samplesOf_eq hfs htempo h hdots
  have hshift := Int.ediv_nonneg hnonneg (show (0 : Int) ≤ 2 ^ (2 + div) from Int.pow_nonneg (by decide))
  rw [heq]
  exact ⟨Int.ediv_nonneg hshift (by omega),
    lt_of_le_of_lt ((Int.ediv_le_self _ hshift).trans (Int.ediv_le_self _ hnonneg)) hlt⟩

include hfs htempo in
/-- More dots make a term no shorter. -/
theorem samplesOf_mono {num : Int} (hnum : (shifts num).isSome = true) {dots' : Nat} (hle : dots' ≤ dots)
    (hdots : dots ≤ 4) : samplesOf mml num dots' ≤ samplesOf mml num dots := by
  obtain ⟨⟨n, div⟩, h⟩ := isSome_iff_exists.mp hnum
  have hpow : (0 : Int) ≤ 2 ^ n ∧ (0 : Int) < 2 ^ (2 + div) := ⟨Int.pow_nonneg (by decide), Int.pow_pos (by decide)⟩
  have hpos := hfs.1
  rw [(samplesOf_eq hfs htempo h hdots).1, (samplesOf_eq hfs htempo h (hle.trans hdots)).1]
  refine Int.ediv_le_ediv htempo (Int.ediv_le_ediv hpow.2 (Int.mul_le_mul_of_nonneg_right ?_ hpow.1))
  exact Int.mul_le_mul_of_nonneg_left (dotsMul_mono dots hdots dots' hle).2.1 (by omega)

/-- What `get_samples` makes of the sum so far and a length. -/
def taken (plusMode : Bool) (samples len : Int) : Int :=
  if plusMode then if 0 < len then wrap (samples + len) else len else len

/-- The number of a term whose number was left out is the default length. -/
def numOf (mml : MusicMacroLang) (num : Int) : Int := if num < 0 then mml.defLength else num

variable {plusMode : Bool}

theorem getSamples_eq {samples num : Int} {len : Int}
    (h : calcSamples mml.fs mml.curTempo (numOf mml num) dots = some len) :
    getSamples mml samples num dots plusMode = some (taken plusMode samples len) := by
  unfold getSamples
  rw [show (if num < 0 then mml.defLength else num) = numOf mml num from rfl, h]
  cases plusMode <;> simp [taken]

theorem taken_true {samples len : Int} (hs : 0 ≤ samples ∧ samples < 2 ^ 31) (hl : 0 ≤ len ∧ len < 2 ^ 31) :
    (tie samples len < 2 ^ 31 → taken true samples len = tie samples len) ∧
      (2 ^ 31 ≤ tie samples len → taken true samples len < 0) := by
  simp only [taken, tie, wrap, Int.bmod]
  grind

theorem taken_lt {p : Bool} {samples len : Int} (hl : len < 2 ^ 31) : taken p samples len < 2 ^ 31 := by
  simp only [taken, wrap, Int.bmod]
  grind

theorem numOf_val (n : Number) : numOf mml n.val = n.val := by
  have := val_nonneg n
  simp [numOf, show ¬ n.val < 0 by omega]

theorem lengthLoop_dots (fuel dots d : Nat) (samples : Int) (plusMode : Bool) (num : Int) (s : Score) :
    lengthLoop τ mml (d + fuel) ⟨dots, samples, .numberd, plusMode, true, num, replicate d 46 ++ s⟩ =
      lengthLoop τ mml fuel ⟨dots + d, samples, .numberd, plusMode, true, num, s⟩ := by
  induction d generalizing dots with
  | zero => simp
  | succ d ih =>
    rw [show d + 1 + fuel = d + fuel + 1 by omega, lengthLoop]
    simp only [lengthBody, numberdCase, replicate_succ, cons_append, head?_cons, tail_cons, if_true, bind_some]
    rw [ih, show dots + 1 + d = dots + (d + 1) by omega]

theorem lengthLoop_plus {fuel dots d : Nat} {samples num len : Int} {t : Term}
    (hlen : calcSamples mml.fs mml.curTempo (numOf mml num) (dots + d) = some len) (hends : Ends rest t.dots ts) :
    lengthLoop τ mml (d + (fuel + 2))
        ⟨dots, samples, .numberd, plusMode, true, num, replicate d 46 ++ (tiedText (t :: ts) ++ rest)⟩ =
      if taken plusMode samples len < 0 then
        some ⟨dots + d, taken plusMode samples len, .plus, true, false, -1,
          t.number.digits ++ (replicate t.dots 46 ++ (tiedText ts ++ rest))⟩
      else lengthLoop τ mml fuel ⟨dots + d, taken plusMode samples len, .numberd, true, true, t.number.val,
        replicate t.dots 46 ++ (tiedText ts ++ rest)⟩ := by
  have hdigits := (head?_tied hends).2
  rw [lengthLoop_dots, lengthLoop]
  simp only [lengthBody, numberdCase, tiedText, cons_append, head?_cons, tail_cons, if_true,
    show ¬ (some (43 : UInt8) = some 46) by decide, if_false, getSamples_eq hlen, map_some, bind_some,
    append_assoc, Bool.true_and]
  by_cases hneg : taken plusMode samples len < 0
  · simp [hneg, lengthLoop]
  · simp only [hneg, decide_false, Bool.not_false, if_false]
    rw [lengthLoop]
    simp only [lengthBody, plusCase, head?_digits, if_true, atoi_digits _ hdigits, (takeWhile_digits _ hdigits).2,
      bind_some]

theorem lengthLoop_end {fuel dots d : Nat} {samples num len : Int}
    (hlen : calcSamples mml.fs mml.curTempo (numOf mml num) (dots + d) = some len) (hends : Ends rest (dots + d) []) :
    lengthLoop τ mml (d + (fuel + 1))
        ⟨dots, samples, .numberd, plusMode, true, num, replicate d 46 ++ (tiedText [] ++ rest)⟩ =
      some ⟨dots + d, taken plusMode samples len, .numberd, plusMode, false, num, rest⟩ := by
  obtain ⟨h₁, h₂, _⟩ := hends
  rw [lengthLoop_dots, lengthLoop]
  simp only [lengthBody, numberdCase, tiedText, nil_append, h₁, h₂, if_false, if_true, getSamples_eq hlen,
    map_some, bind_some]
  cases fuel <;> simp [lengthLoop]

/-- No sum on the way overflows. -/
def SumsFit (mml : MusicMacroLang) (samples : Int) (dots : Nat) : List Term → Prop
  | [] => True
  | t :: ts =>
    let sum := tie samples (samplesOf mml t.number.val (dots + t.dots))
    sum < 2 ^ 31 ∧ SumsFit mml sum (dots + t.dots) ts

theorem lengthLoop_refused {fuel dots d : Nat} {samples num len : Int}
    (hlen : calcSamples mml.fs mml.curTempo (numOf mml num) (dots + d) = some len)
    (hneg : taken plusMode samples len < 0) (hfuel : d + (tiedText ts).length < fuel)
    (hends : Ends rest (dots + d) ts) :
    ∃ v, lengthLoop τ mml fuel
      ⟨dots, samples, .numberd, plusMode, true, num, replicate d 46 ++ (tiedText ts ++ rest)⟩ = some v ∧
        v.samples < 0 := by
  cases ts with
  | nil =>
    obtain ⟨fuel, rfl⟩ := Nat.exists_eq_add_of_lt hfuel
    rw [show d + (tiedText []).length + fuel + 1 = d + (fuel + 1) by simp [tiedText]; omega, lengthLoop_end hlen hends]
    exact ⟨_, rfl, hneg⟩
  | cons t ts =>
    obtain ⟨fuel, rfl⟩ : ∃ k, fuel = d + (k + 2) := ⟨fuel - d - 2, by simp [tiedText] at hfuel; omega⟩
    rw [lengthLoop_plus hlen hends, if_pos hneg]
    exact ⟨_, rfl, hneg⟩

include hfs htempo in
theorem lengthLoop_tied (ts : List Term) {fuel dots d : Nat} {samples num s : Int}
    (hfuel : d + (tiedText ts).length < fuel) (hends : Ends rest (dots + d) ts)
    (hnum : (shifts (numOf mml num)).isSome = true)
    (hs : taken plusMode samples (samplesOf mml (numOf mml num) (dots + d)) = s) :
    let v := lengthLoop τ mml fuel
      ⟨dots, samples, .numberd, plusMode, true, num, replicate d 46 ++ (tiedText ts ++ rest)⟩
    (dots + d + dotsOf ts ≤ 4 ∧ 0 ≤ s ∧ SumsFit mml s (dots + d) ts →
      v.map (fun v => (v.samples, v.score)) = some (addTied mml s (dots + d) ts, rest)) ∧
    (¬(dots + d + dotsOf ts ≤ 4 ∧ 0 ≤ s ∧ SumsFit mml s (dots + d) ts) → ∃ v', v = some v' ∧ v'.samples < 0) := by
  rcases lt_or_ge 4 (dots + d) with hlt | hle
  · refine ⟨fun h => absurd h.1 (by omega), fun _ => lengthLoop_refused (calcSamples_of_lt _ hlt) ?_ hfuel hends⟩
    cases plusMode <;> exact show negEINVAL < 0 by decide
  rcases lt_or_ge s 0 with hneg | hnonneg
  · exact ⟨fun h => absurd h.2.1 (by omega),
      fun _ => lengthLoop_refused (calcSamples_of_le htempo _ hle) (by rwa [hs]) hfuel hends⟩
  have hrange := samplesOf_range hfs htempo hnum hle
  induction ts generalizing fuel dots d samples num s plusMode with
  | nil =>
    obtain ⟨fuel, rfl⟩ := Nat.exists_eq_add_of_lt hfuel
    rw [show d + (tiedText []).length + fuel + 1 = d + (fuel + 1) by simp [tiedText]; omega,
      lengthLoop_end (calcSamples_of_le htempo _ hle) hends, hs]
    exact ⟨fun _ => rfl, fun h => absurd ⟨hle, hnonneg, trivial⟩ h⟩
  | cons t ts ih =>
    have hsum : dotsOf (t :: ts) = t.dots + dotsOf ts := by simp [dotsOf]
    have hlength : (tiedText (t :: ts)).length = t.number.digits.length + (t.dots + (tiedText ts).length) + 1 := by
      simp [tiedText]
    have hdigits := length_pos_iff.mpr t.number.digits_ne_nil
    obtain ⟨fuel, rfl⟩ : ∃ k, fuel = d + (k + 2) := ⟨fuel - d - 2, by omega⟩
    have hs_range : 0 ≤ s ∧ s < 2 ^ 31 := ⟨hnonneg, hs ▸ taken_lt hrange.2⟩
    have hends' : Ends rest (dots + d + t.dots) ts := Ends.mono (show Ends rest t.dots ts from hends) (by omega)
    have hval : numOf mml t.number.val = t.number.val := numOf_val _
    rw [lengthLoop_plus (calcSamples_of_le htempo _ hle) hends, hs, if_neg (by omega)]
    rcases lt_or_ge 4 (dots + d + t.dots) with hlt | hle'
    · refine ⟨fun h => absurd h.1 (by omega),
        fun _ => lengthLoop_refused (calcSamples_of_lt _ hlt) (show negEINVAL < 0 by decide) (by omega) hends'⟩
    have hterm := samplesOf_range hfs htempo t.number.shifts_isSome hle'
    obtain ⟨hfits, hwraps⟩ := taken_true hs_range hterm
    rcases lt_or_ge (tie s (samplesOf mml t.number.val (dots + d + t.dots))) (2 ^ 31) with hsmall | hbig
    · have htie : 0 ≤ tie s (samplesOf mml t.number.val (dots + d + t.dots)) := by
        rw [tie]
        split_ifs <;> omega
      have hrest := @ih true fuel (dots + d) t.dots s t.number.val _ (by omega) hends'
        (by rw [hval]; exact t.number.shifts_isSome) (by rw [hval]; exact hfits hsmall) hle' htie
        (by rw [hval]; exact hterm)
      exact ⟨fun h => hrest.1 ⟨by omega, htie, h.2.2.2⟩,
        fun h => hrest.2 fun h' => h ⟨by omega, hnonneg, hsmall, h'.2.2⟩⟩
    · refine ⟨fun h => absurd h.2.2.1 (by omega), fun _ => ?_⟩
      exact lengthLoop_refused (by rw [hval]; exact calcSamples_of_le htempo _ hle') (hwraps hbig) (by omega) hends'

theorem lengthLoop_idle {v v' : LengthVars} (h : idleCase τ mml v = some v')
    (hstate : v.state = .idle ∧ v'.state = .numberd) (hparsing : v.parsing = true ∧ v'.parsing = true) (fuel : Nat) :
    lengthLoop τ mml (fuel + 1) v = lengthLoop τ mml (fuel + 1) v' := by
  simp only [lengthLoop, hparsing.1, hparsing.2, if_true, lengthBody, hstate.1, hstate.2, h, bind_some]

def LengthText.num (mml : MusicMacroLang) (e : LengthText) : Int := (e.number.map (·.val)).getD mml.defLength

theorem LengthText.shifts_num (e : LengthText) (hdef : (shifts mml.defLength).isSome = true) :
    (shifts (e.num mml)).isSome = true := by
  unfold LengthText.num
  cases e.number with
  | none => exact hdef
  | some n => exact n.shifts_isSome

theorem sampleLength_loop (htempo : 0 < mml.curTempo) (e : LengthText) (hends : Ends rest e.dots e.tied) :
    ∃ num dots d, dots + d = e.dots ∧ numOf mml num = e.num mml ∧
      sampleLength τ mml (e.text ++ rest) =
        (lengthLoop τ mml ((e.text ++ rest).length + 1) ⟨dots, samplesOf mml mml.defLength 0, .numberd, false, true,
          num, replicate d 46 ++ (tiedText e.tied ++ rest)⟩).map fun v => (v.samples, v.score) := by
  have hstart : getSamples mml 0 (-1) 0 false = some (samplesOf mml mml.defLength 0) :=
    getSamples_eq (calcSamples_of_le htempo _ (by decide))
  obtain ⟨number, dots, tied, _, hpos⟩ := e
  cases number with
  | some n =>
    have hd := (head?_tied hends).2
    have hidle : idleCase τ mml ⟨0, samplesOf mml mml.defLength 0, .idle, false, true, -1,
        n.digits ++ (replicate dots 46 ++ (tiedText tied ++ rest))⟩ =
        some ⟨0, samplesOf mml mml.defLength 0, .numberd, false, true, n.val,
          replicate dots 46 ++ (tiedText tied ++ rest)⟩ := by
      simp only [idleCase, head?_digits, if_true, atoi_digits _ hd, (takeWhile_digits _ hd).2]
    have hq : (n.digits ++ (replicate dots 46 ++ (tiedText tied ++ rest))).head?.any isQualifire = true := by
      obtain ⟨c, ds, hds⟩ := exists_cons_of_ne_nil n.digits_ne_nil
      simp [hds, isQualifire, n.isdigit_of_mem c (by simp [hds])]
    refine ⟨n.val, 0, dots, zero_add _, numOf_val _, ?_⟩
    simp only [sampleLength, LengthText.text, elim_some, hstart, bind_some, append_assoc, hq, if_true]
    rw [lengthLoop_idle hidle ⟨rfl, rfl⟩ ⟨rfl, rfl⟩]
  | none =>
    obtain ⟨d, rfl⟩ : ∃ d, dots = d + 1 := ⟨dots - 1, by have := hpos rfl; omega⟩
    have hidle : idleCase τ mml ⟨0, samplesOf mml mml.defLength 0, .idle, false, true, -1,
        46 :: (replicate d 46 ++ (tiedText tied ++ rest))⟩ =
        some ⟨1, samplesOf mml mml.defLength 0, .numberd, false, true, -1,
          replicate d 46 ++ (tiedText tied ++ rest)⟩ := by
      simp [idleCase, show isdigit 46 = false by decide]
    refine ⟨-1, 1, d, add_comm _ _, rfl, ?_⟩
    simp only [sampleLength, LengthText.text, elim_none, hstart, bind_some, nil_append,
      replicate_succ, cons_append, append_assoc, head?_cons, any_some,
      show isQualifire 46 = true by decide, if_true]
    rw [lengthLoop_idle hidle ⟨rfl, rfl⟩ ⟨rfl, rfl⟩]

include hfs htempo in
/-- The sum of a length as the loop takes it; if it is refused or overflows, it is negative. -/
theorem sampleLength_text (e : LengthText) (hdef : (shifts mml.defLength).isSome = true)
    (hends : Ends rest e.dots e.tied) :
    (e.dots + dotsOf e.tied ≤ 4 ∧ SumsFit mml (samplesOf mml (e.num mml) e.dots) e.dots e.tied →
      sampleLength τ mml (e.text ++ rest) =
        some (addTied mml (samplesOf mml (e.num mml) e.dots) e.dots e.tied, rest)) ∧
    (¬(e.dots + dotsOf e.tied ≤ 4 ∧ SumsFit mml (samplesOf mml (e.num mml) e.dots) e.dots e.tied) →
      ∃ r, sampleLength τ mml (e.text ++ rest) = some r ∧ r.1 < 0) := by
  obtain ⟨num, dots, d, hd, hnum, heq⟩ := sampleLength_loop (τ := τ) htempo e hends
  have hfuel : d + (tiedText e.tied).length < (e.text ++ rest).length + 1 := by
    simp [LengthText.text]
    omega
  have hshift := e.shifts_num hdef
  have hnonneg := (samplesOf_range hfs htempo hshift e.dots_le).1
  rw [heq]
  rw [← hd] at hends hnonneg ⊢
  rw [← hnum] at hshift hnonneg ⊢
  have hloop := @lengthLoop_tied _ τ _ hfs htempo false e.tied _ _ _ (samplesOf mml mml.defLength 0) _ _ hfuel hends
    hshift rfl
  refine ⟨fun h => hloop.1 ⟨h.1, hnonneg, h.2⟩, fun h => ?_⟩
  obtain ⟨v, hv, hneg⟩ := hloop.2 fun h' => h ⟨h'.1, h'.2.2⟩
  exact ⟨_, by rw [hv, map_some], hneg⟩

end Samples

/-! ## When that is the sum of the terms -/

def LengthText.sum (mml : MusicMacroLang) (e : LengthText) : Int :=
  samplesOf mml (e.num mml) e.dots + (e.tied.map fun t => samplesOf mml t.number.val t.dots).sum

/-- The length of each tied term: with its own dots, and with those of the terms before it as well. -/
def lengths (mml : MusicMacroLang) (dots : Nat) : List Term → List (Int × Int)
  | [] => []
  | t :: ts => (samplesOf mml t.number.val t.dots, samplesOf mml t.number.val (dots + t.dots)) ::
      lengths mml (dots + t.dots) ts

/-- The tied terms up to the last one that lasts no sample. -/
def LengthText.silent (mml : MusicMacroLang) (e : LengthText) : List (Int × Int) :=
  (lengths mml e.dots e.tied).rdropWhile (0 < ·.2)

/-- The tied terms behind it. -/
def LengthText.heard (mml : MusicMacroLang) (e : LengthText) : List (Int × Int) :=
  (lengths mml e.dots e.tied).rtakeWhile (0 < ·.2)

/-- No term that lasts a sample stands before a tied one that lasts none. -/
def LengthText.Kept (mml : MusicMacroLang) (e : LengthText) : Prop :=
  e.silent mml ≠ [] → samplesOf mml (e.num mml) e.dots = 0 ∧ ∀ l ∈ e.silent mml, l.1 = 0

/-- The dots of earlier terms change none of the terms that are heard. -/
def LengthText.Own (mml : MusicMacroLang) (e : LengthText) : Prop := ∀ l ∈ e.heard mml, l.1 = l.2

/-- No sum on the way overflows. -/
def LengthText.SumsFit (mml : MusicMacroLang) (e : LengthText) : Prop :=
  Mml.SumsFit mml (samplesOf mml (e.num mml) e.dots) e.dots e.tied

instance (mml : MusicMacroLang) (e : LengthText) : Decidable (e.Kept mml) := inferInstanceAs (Decidable (_ → _))

instance (mml : MusicMacroLang) (e : LengthText) : Decidable (e.Own mml) := List.decidableBAll _ _

instance decidableSumsFit (mml : MusicMacroLang) :
    ∀ (samples : Int) (dots : Nat) (ts : List Term), Decidable (SumsFit mml samples dots ts)
  | _, _, [] => .isTrue trivial
  | _, _, _ :: ts => @instDecidableAnd _ _ _ (decidableSumsFit mml _ _ ts)

instance (mml : MusicMacroLang) (e : LengthText) : Decidable (e.SumsFit mml) :=
  decidableSumsFit mml _ e.dots e.tied

def LengthText.lost (mml : MusicMacroLang) (e : LengthText) : Int :=
  if e.silent mml = [] then 0 else samplesOf mml (e.num mml) e.dots + ((e.silent mml).map (·.1)).sum

def LengthText.gained (mml : MusicMacroLang) (e : LengthText) : Int := ((e.heard mml).map fun l => l.2 - l.1).sum

theorem addTied_eq_foldl (samples : Int) (dots : Nat) (ts : List Term) :
    addTied mml samples dots ts = (lengths mml dots ts).foldl (fun s l => tie s l.2) samples := by
  induction ts generalizing samples dots with
  | nil => rfl
  | cons t ts ih => exact ih ..

theorem sum_lengths (mml : MusicMacroLang) (dots : Nat) (ts : List Term) :
    ((lengths mml dots ts).map (·.1)).sum = (ts.map fun t => samplesOf mml t.number.val t.dots).sum := by
  induction ts generalizing dots with
  | nil => rfl
  | cons t ts ih => simp [lengths, ih]

theorem foldl_tie (samples : Int) (ls : List (Int × Int)) (hls : ∀ l ∈ ls, 0 ≤ l.2) :
    ls.foldl (fun s l => tie s l.2) samples =
      (if ls.rdropWhile (0 < ·.2) = [] then samples else 0) + ((ls.rtakeWhile (0 < ·.2)).map (·.2)).sum := by
  induction ls using reverseRecOn with
  | nil => simp
  | append_singleton ls l ih =>
    rw [foldl_append, foldl_cons, foldl_nil]
    by_cases hl : 0 < l.2
    · rw [ih fun x hx => hls x (by simp [hx]), rdropWhile_concat_pos _ _ _ (by simpa using hl),
        rtakeWhile_concat_pos _ _ _ (by simpa using hl), tie, if_pos hl]
      simp
      omega
    · have h0 : l.2 = 0 := by have := hls l (by simp); omega
      rw [rdropWhile_concat_neg _ _ _ (by simpa using hl), rtakeWhile_concat_neg _ _ _ (by simpa using hl),
        tie, if_neg hl]
      simp [h0]

theorem LengthText.mem_silent {e : LengthText} : ∀ l ∈ e.silent mml, l ∈ lengths mml e.dots e.tied := fun _ hl =>
  ( rdropWhile_prefix _ _).mem hl

theorem LengthText.mem_heard {e : LengthText} : ∀ l ∈ e.heard mml, l ∈ lengths mml e.dots e.tied := fun _ hl =>
  (rtakeWhile_suffix _ _).mem hl

section

variable (hfs : Rate mml.fs) (htempo : 0 < mml.curTempo)

include hfs htempo

theorem lengths_nonneg (hdots : dots + dotsOf ts ≤ 4) : ∀ l ∈ lengths mml dots ts, 0 ≤ l.1 ∧ l.1 ≤ l.2 := by
  induction ts generalizing dots with
  | nil => simp [lengths]
  | cons t ts ih =>
    have hsum : dotsOf (t :: ts) = t.dots + dotsOf ts := by simp [dotsOf]
    intro l hl
    rcases mem_cons.mp hl with rfl | hl
    · exact ⟨(samplesOf_range hfs htempo t.number.shifts_isSome t.dots_le).1,
        samplesOf_mono hfs htempo t.number.shifts_isSome (by omega) (by omega)⟩
    · exact ih (by omega) l hl

variable (hdef : (shifts mml.defLength).isSome = true) (e : LengthText)

include hdef

theorem LengthText.sum_nonneg : 0 ≤ e.sum mml := by
  have h₁ := (samplesOf_range hfs htempo (e.shifts_num hdef) e.dots_le).1
  have h₂ : 0 ≤ (e.tied.map fun t => samplesOf mml t.number.val t.dots).sum := by
    refine List.sum_nonneg fun x hx => ?_
    obtain ⟨t, _, rfl⟩ := mem_map.mp hx
    exact (samplesOf_range hfs htempo t.number.shifts_isSome t.dots_le).1
  unfold LengthText.sum
  omega

theorem LengthText.lost_eq_zero_iff (hdots : e.dots + dotsOf e.tied ≤ 4) : e.lost mml = 0 ↔ e.Kept mml := by
  have hfirst := (samplesOf_range hfs htempo (e.shifts_num hdef) e.dots_le).1
  have hnonneg : ∀ x ∈ (e.silent mml).map (·.1), 0 ≤ x :=
    forall_mem_map.mpr fun l hl => (lengths_nonneg hfs htempo hdots l (mem_silent l hl)).1
  have hsum := List.sum_nonneg hnonneg
  rw [LengthText.lost, LengthText.Kept]
  split_ifs with hnil
  · exact iff_of_true rfl fun h => absurd hnil h
  · refine ⟨fun h _ => ⟨by omega, fun l hl => ?_⟩, fun h => ?_⟩
    · exact List.all_zero_of_le_zero_le_of_sum_eq_zero hnonneg (by omega) (mem_map_of_mem hl)
    · obtain ⟨hzero, hall⟩ := h hnil
      rw [hzero, sum_eq_zero (forall_mem_map.mpr hall), zero_add]

omit hdef in
theorem LengthText.gained_eq_zero_iff (hdots : e.dots + dotsOf e.tied ≤ 4) : e.gained mml = 0 ↔ e.Own mml := by
  have hnonneg : ∀ x ∈ (e.heard mml).map (fun l => l.2 - l.1), 0 ≤ x :=
    forall_mem_map.mpr fun l hl => sub_nonneg.mpr (lengths_nonneg hfs htempo hdots l (mem_heard l hl)).2
  refine ⟨fun h l hl => ?_, fun h => sum_eq_zero (forall_mem_map.mpr fun l hl => ?_)⟩
  · have hzero := List.all_zero_of_le_zero_le_of_sum_eq_zero hnonneg h (mem_map_of_mem hl)
    omega
  · rw [h l hl, sub_self]

end

theorem LengthText.sum_eq (mml : MusicMacroLang) (e : LengthText) :
    e.sum mml + e.gained mml = (if e.silent mml = [] then samplesOf mml (e.num mml) e.dots else 0) +
      ((e.heard mml).map (·.2)).sum + e.lost mml := by
  have hsum := sum_lengths mml e.dots e.tied
  rw [← rdropWhile_append_rtakeWhile (p := fun l => decide (0 < l.2)) (l := lengths mml e.dots e.tied),
    map_append, sum_append] at hsum
  have hdiff (ls : List (Int × Int)) : (ls.map fun l => l.2 - l.1).sum = (ls.map (·.2)).sum - (ls.map (·.1)).sum := by
    induction ls with
    | nil => rfl
    | cons l ls ih => simp only [map_cons, sum_cons, ih]; omega
  unfold LengthText.sum LengthText.gained LengthText.lost LengthText.silent LengthText.heard
  rw [hdiff]
  by_cases hnil : (lengths mml e.dots e.tied).rdropWhile (0 < ·.2) = []
  · simp only [hnil, map_nil, sum_nil, if_true] at hsum ⊢
    omega
  · simp only [hnil, if_false]
    omega

/-- For every positive tempo and sampling rate, a length gives the sum of its terms, each with its own dots, exactly if
it has at most four dots, no sum overflows, no term is lost before a tied one that lasts no sample, and none that is
heard is longer for the dots that the loop keeps; provided that the last two do not both fail, because what is lost can
then make up for what is gained. -/
theorem tied_length_iff (hfs : Rate mml.fs) (htempo : 0 < mml.curTempo) (hdef : (shifts mml.defLength).isSome = true)
    (e : LengthText) (rest : Score) (hends : Ends rest e.dots e.tied) (hone : e.Kept mml ∨ e.Own mml) :
    sampleLength τ mml (e.text ++ rest) = some (e.sum mml, rest) ↔
      e.dots + dotsOf e.tied ≤ 4 ∧ e.SumsFit mml ∧ e.Kept mml ∧ e.Own mml := by
  have htext := sampleLength_text (τ := τ) hfs htempo e hdef hends
  by_cases hfit : e.dots + dotsOf e.tied ≤ 4 ∧ e.SumsFit mml
  · have hsum := LengthText.sum_eq mml e
    have hfold := foldl_tie (samplesOf mml (e.num mml) e.dots) (lengths mml e.dots e.tied) fun l hl =>
      (lengths_nonneg hfs htempo hfit.1 l hl).1.trans (lengths_nonneg hfs htempo hfit.1 l hl).2
    have hlost := e.lost_eq_zero_iff hfs htempo hdef hfit.1
    have hgained := e.gained_eq_zero_iff hfs htempo hfit.1
    rw [htext.1 hfit, addTied_eq_foldl, hfold]
    simp only [some.injEq, Prod.mk.injEq, and_true, hfit.1, hfit.2, true_and, ← hlost, ← hgained] at hone ⊢
    change (if e.silent mml = [] then _ else _) + ((e.heard mml).map (·.2)).sum = _ ↔ _
    omega
  · -- refused or negative: the sum is not
    refine iff_of_false (fun h => ?_) fun h => hfit ⟨h.1, h.2.1⟩
    obtain ⟨r, hr, hneg⟩ := htext.2 hfit
    obtain rfl := some.inj (hr.symm.trans h)
    exact absurd (e.sum_nonneg hfs htempo hdef) (Int.not_le.mpr hneg)

end

def plain : MusicMacroLang := ⟨120, 4, 4, 48000, .normal, 0, 0, 0⟩

def quarter : NoteNumber := ⟨⟨[52], by decide, by simp [isdigit], by decide⟩, by decide⟩

def sixteenth : NoteNumber := ⟨⟨[49, 54], by decide, by simp [isdigit], by decide⟩, by decide⟩

def thirtySecond : NoteNumber := ⟨⟨[51, 50], by decide, by simp [isdigit], by decide⟩, by decide⟩

def sixtyFourth : NoteNumber := ⟨⟨[54, 52], by decide, by simp [isdigit], by decide⟩, by decide⟩

theorem tied_length_last : sampleLength .bits32 plain [52, 43, 54, 52, 46, 32] = some (26250, [32]) ∧
    (⟨some quarter, 0, [⟨sixtyFourth, 1, by decide⟩], by decide, by decide⟩ : LengthText).sum plain = 26250 := by
  have h := (tied_length_iff (τ := .bits32) (show Rate plain.fs by decide) (by decide) (by decide)
    ⟨some quarter, 0, [⟨sixtyFourth, 1, by decide⟩], by decide, by decide⟩ [32] (by simp [Ends])
    (.inr (by decide +kernel))).mpr (by decide +kernel)
  exact ⟨h, by decide +kernel⟩

/-- In `32.+64+16`, with ten samples to a quarter, the first term is lost and the last one gains as much. -/
example :
    let mml := { plain with fs := 1, curTempo := 6 }
    let e : LengthText := ⟨some thirtySecond, 1, [⟨sixtyFourth, 0, by decide⟩, ⟨sixteenth, 0, by decide⟩], by decide,
      by decide⟩
    sampleLength .bits32 mml e.text = some (e.sum mml, []) ∧ ¬e.Kept mml ∧ ¬e.Own mml := by
  decide +kernel

/-- `4.+4`: the dot is counted for the second term too. `4+64` at 8 samples a second and tempo 100: the second term
lasts no sample, and the first one is lost. -/
theorem tied_lengths_wrong :
    (sampleLength .bits32 plain [52, 46, 43, 52] = some (72000, []) ∧
      (⟨some quarter, 1, [⟨quarter, 0, by decide⟩], by decide, by decide⟩ : LengthText).sum plain = 60000) ∧
    sampleLength .bits32 { plain with fs := 8, curTempo := 100 } [52, 43, 54, 52] = some (0, []) ∧
      (⟨some quarter, 0, [⟨sixtyFourth, 0, by decide⟩], by decide, by decide⟩ : LengthText).sum
        { plain with fs := 8, curTempo := 100 } = 4 := by
  decide +kernel

end NuttxApps.Mml
