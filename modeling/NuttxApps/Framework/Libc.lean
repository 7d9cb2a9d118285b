import NuttxApps.Framework.CString
import Mathlib.Data.List.Flatten
import Mathlib.Data.List.Induction
import Mathlib.Data.List.Perm.Subperm
import Mathlib.Data.List.TakeWhile
import Mathlib.Algebra.GroupWithZero.Nat
import Mathlib.Algebra.Ring.Int.Defs

/-!
# Texts read back by the C library

`fgets` and the loop around it, the character classes of `ctype.h` in the C locale, `strcasecmp`, `strtok`, and the
conversion of numbers by `sscanf`, `strtol` and `strtoull`.
-/

namespace NuttxApps.Libc

open CString
open List hiding min max

inductive Target
  | bits32
  | bits64

def Target.size : Target → Nat
  | .bits32 => 2 ^ 32
  | .bits64 => 2 ^ 64

variable {n : Nat} (t : Target)

theorem Target.le_size : 2 ^ 32 ≤ t.size := by
  cases t <;> decide

def isalpha (c : UInt8) : Bool := 65 ≤ c && c ≤ 90 || 97 ≤ c && c ≤ 122

def isdigit (c : UInt8) : Bool := 48 ≤ c && c ≤ 57

def isspace (c : UInt8) : Bool := c == 32 || 9 ≤ c && c ≤ 13

def tolower (c : UInt8) : UInt8 := if 65 ≤ c && c ≤ 90 then c + 32 else c

def strcasecmp (s t : List UInt8) : Bool := s.map tolower == t.map tolower

/-- The C string at the start of a buffer that holds a terminator behind the bytes `m`. -/
def cstr (m : List UInt8) : List UInt8 := m.takeWhile (· ≠ 0)

theorem cstr_of_not_mem {m : List UInt8} (h : 0 ∉ m) : cstr m = m := by
  refine takeWhile_eq_self_iff.mpr fun c hc => ?_
  simpa using fun h0 : c = 0 => h (h0 ▸ hc)

variable {s : List UInt8}

theorem cstr_append (hs : 0 ∉ s) (rest : List UInt8) : cstr (s ++ 0 :: rest) = s := by
  rw [cstr, takeWhile_append_of_pos]
  · simp
  · intro c hc
    simpa using fun h : c = 0 => hs (h ▸ hc)

/-- The words that the calls of `strtok` find in a text, one after the other. -/
def tokens (delim : UInt8 → Bool) (s : List UInt8) : List (List UInt8) := (s.splitOnP delim).filter (· ≠ [])

theorem tokens_intercalate {d : UInt8} {words : List (List UInt8)} (h : ∀ word ∈ words, d ∉ word) (hne : words ≠ []) :
    tokens (· == d) ([d].intercalate words) = words.filter (· ≠ []) :=
  congrArg (List.filter (· ≠ [])) (splitOn_intercalate d h hne)

theorem intercalate_append {d : UInt8} {words : List (List UInt8)} (hne : words ≠ []) :
    [d].intercalate words ++ [d] = words.flatMap (· ++ [d]) := by
  induction words with
  | nil => exact absurd rfl hne
  | cons word words ih =>
    cases words with
    | nil => simp
    | cons next words => rw [intercalate_cons_cons, flatMap_cons, ← ih (cons_ne_nil _ _), append_assoc, append_assoc]

/-- Different words of a text are not longer than it together. -/
theorem length_intercalate_le {d : UInt8} {words : List (List UInt8)} {s : List UInt8} (hnodup : words.Nodup)
    (hsub : words ⊆ tokens (· == d) s) : ([d].intercalate words).length ≤ s.length := by
  obtain rfl | hne := eq_or_ne words []
  · exact Nat.zero_le _
  have hpieces : words ⊆ s.splitOn d := Subset.trans hsub (filter_subset_self _)
  obtain ⟨l, hperm, hl⟩ := subperm_of_subset hnodup hpieces
  have hlen := (hl.flatMap (· ++ [d])).length_le
  rw [(hperm.flatMap_right _).length_eq, ← intercalate_append (splitOn_ne_nil _ _), ← intercalate_append hne,
    intercalate_splitOn, length_append, length_append] at hlen
  exact Nat.le_of_add_le_add_right hlen

/-- At most `n` bytes of a stream, up to and with the first newline; and the rest of it. -/
def fgets : Nat → List UInt8 → List UInt8 × List UInt8
  | 0, s => ([], s)
  | _ + 1, [] => ([], [])
  | n + 1, c :: s => if c = 10 then ([c], s) else (c :: (fgets n s).1, (fgets n s).2)

theorem length_fgets_le (n : Nat) (s : List UInt8) : (fgets n s).1.length ≤ n := by
  fun_induction fgets n s <;> simp_all

theorem fgets_append (n : Nat) (s : List UInt8) : (fgets n s).1 ++ (fgets n s).2 = s := by
  fun_induction fgets n s <;> simp_all

section

variable {n : Nat} {s : List UInt8} (hs : 10 ∉ s)

include hs

theorem fgets_line (rest : List UInt8) :
    fgets n (s ++ 10 :: rest) =
      if s.length < n then (s ++ [10], rest) else (s.take n, s.drop n ++ 10 :: rest) := by
  induction s generalizing n with
  | nil => cases n <;> simp [fgets]
  | cons c s ih =>
    rw [mem_cons, not_or] at hs
    cases n with
    | zero => simp [fgets]
    | succ n =>
      simp only [cons_append, fgets, if_neg (Ne.symm hs.1), ih hs.2, length_cons, Nat.add_lt_add_iff_right]
      split <;> simp

theorem fgets_of_not_mem : fgets n s = (s.take n, s.drop n) := by
  induction s generalizing n with
  | nil => cases n <;> rfl
  | cons c s ih =>
    rw [mem_cons, not_or] at hs
    cases n with
    | zero => rfl
    | succ n => simp [fgets, Ne.symm hs.1, ih hs.2]

end

def readLinesAux (n : Nat) : Nat → List UInt8 → List (List UInt8)
  | 0, _ => []
  | _ + 1, [] => []
  | fuel + 1, s => (fgets n s).1 :: readLinesAux n fuel (fgets n s).2

/-- What the loop `while (fgets(buffer, n + 1, f))` sees; every round takes a byte. -/
def readLines (n : Nat) (s : List UInt8) : List (List UInt8) := readLinesAux n s.length s

theorem length_fgets_lt (hn : 0 < n) {s : List UInt8} (hs : s ≠ []) : (fgets n s).2.length < s.length := by
  have h := congrArg List.length (fgets_append n s)
  rw [length_append] at h
  obtain ⟨n, rfl⟩ := Nat.exists_eq_add_of_lt hn
  obtain ⟨c, s, rfl⟩ := exists_cons_of_ne_nil hs
  have : 0 < (fgets (0 + n + 1) (c :: s)).1.length := by
    rw [fgets]
    split <;> simp
  omega

theorem readLinesAux_eq (hn : 0 < n) {fuel : Nat} {s : List UInt8} (h : s.length ≤ fuel) :
    readLinesAux n fuel s = readLines n s := by
  unfold readLines
  induction fuel using Nat.strongRecOn generalizing s with
  | ind fuel ih =>
    obtain _ | ⟨c, s⟩ := s
    · cases fuel <;> rfl
    obtain _ | fuel := fuel
    · simp at h
    have hlt := length_fgets_lt hn (cons_ne_nil c s)
    simp only [length_cons] at h hlt ⊢
    rw [readLinesAux, readLinesAux, ih fuel (by omega) (by omega)]
    -- the fuel of the right side is enough for the rest as well
    rcases lt_or_ge s.length (fuel + 1) with hf | hf
    · rw [ih s.length hf (by omega)]
    · omega
    all_goals simp

theorem readLines_cons (hn : 0 < n) {s : List UInt8} (hs : s ≠ []) :
    readLines n s = (fgets n s).1 :: readLines n (fgets n s).2 := by
  obtain ⟨c, s, rfl⟩ := exists_cons_of_ne_nil hs
  have hlt := length_fgets_lt hn hs
  rw [readLines, length_cons, readLinesAux, readLinesAux_eq hn]
  · simpa [Nat.lt_succ_iff] using hlt
  · simp

theorem length_le_of_mem_readLines {s line : List UInt8} (h : line ∈ readLines n s) : line.length ≤ n := by
  unfold readLines at h
  generalize s.length = fuel at h
  fun_induction readLinesAux n fuel s with
  | case1 => simp at h
  | case2 => simp at h
  | case3 fuel s _ ih =>
    rcases mem_cons.mp h with rfl | h
    · exact length_fgets_le n s
    · exact ih h

theorem flatten_readLines (hn : 0 < n) (s : List UInt8) :
    (readLines n s).flatten = s ∧ ∀ line ∈ readLines n s, line ≠ [] := by
  induction hlength : s.length using Nat.strongRecOn generalizing s with
  | ind length ih =>
    by_cases hs : s = []
    · subst hs
      exact ⟨rfl, by simp [readLines, readLinesAux]⟩
    · have hlt := length_fgets_lt hn hs
      have hrest := ih _ (hlength ▸ hlt) (fgets n s).2 rfl
      rw [readLines_cons hn hs, flatten_cons, hrest.1, forall_mem_cons]
      refine ⟨fgets_append n s, fun hnil => ?_, hrest.2⟩
      have := congrArg List.length (fgets_append n s)
      simp [hnil] at this
      omega

theorem readLines_flatMap {ls : List (List UInt8)} (h : ∀ l ∈ ls, 10 ∉ l ∧ l.length < n) (s : List UInt8) :
    readLines n (ls.flatMap (· ++ [10]) ++ s) = ls.map (· ++ [10]) ++ readLines n s := by
  induction ls with
  | nil => rfl
  | cons l ls ih =>
    have hl := h l mem_cons_self
    rw [readLines_cons (by omega) (by simp), flatMap_cons, append_assoc, append_assoc,
      singleton_append, fgets_line hl.1, if_pos hl.2, map_cons,
      ih fun l' hl' => h l' (mem_cons_of_mem l hl'), cons_append]

/-- The lines of a text, without their newlines; the last one may lack its newline. -/
def lines : List UInt8 → List (List UInt8)
  | [] => []
  | c :: s => if c = 10 then [] :: lines s else
    match lines s with
    | [] => [[c]]
    | l :: ls => (c :: l) :: ls

theorem lines_eq_cons (hs : s ≠ []) : lines s = s.takeWhile (· ≠ 10) :: lines (s.dropWhile (· ≠ 10)).tail := by
  induction s with
  | nil => exact absurd rfl hs
  | cons c s ih =>
    by_cases hc : c = 10
    · simp [lines, hc]
    · rw [lines, if_neg hc, takeWhile_cons_of_pos (by simpa using hc), dropWhile_cons_of_pos (by simpa using hc)]
      by_cases hnil : s = []
      · subst hnil
        rfl
      · rw [ih hnil]

def digitsVal (s : List UInt8) : Nat := s.foldl (fun n c => 10 * n + (c.toNat - 48)) 0

/-- `sscanf(s, "%d", &i)`: white space, a sign, digits; a number that does not fit becomes the nearest one that does. -/
def scanInt (s : List UInt8) : Option Int32 :=
  let s := s.dropWhile isspace
  let neg := s.head? == some 45
  let s := if neg || s.head? == some 43 then s.tail else s
  let ds := s.takeWhile isdigit
  if ds = [] then none
  else some (.ofInt (max (-2147483648) (min 2147483647 (if neg then -digitsVal ds else digitsVal ds))))

/-- `atoi`, which is `strtol` in base 10 cut to an `int`. -/
def atoi (s : List UInt8) : Int32 :=
  let s := s.dropWhile isspace
  let neg := s.head? == some 45
  let ds := (if neg || s.head? == some 43 then s.tail else s).takeWhile isdigit
  .ofInt (max (-(t.size / 2 : Nat)) (min ((t.size / 2 : Nat) - 1) (if neg then -digitsVal ds else digitsVal ds)))

def digit (c : UInt8) : Option Nat :=
  if isdigit c then some (c.toNat - 48) else if isalpha c then some ((tolower c).toNat - 87) else none

def isDigitOf (base : Nat) (c : UInt8) : Bool := (digit c).any (· < base)

/-- The base that `strtol` and `strtoull` choose for base 0, and the digits. -/
def baseOf (s : List UInt8) : Nat × List UInt8 :=
  if s.head? = some 48 then
    if (s.tail.head?.map tolower) = some 120 ∧ (s.drop 2).head?.any (isDigitOf 16) then (16, s.drop 2) else (8, s)
  else (10, s)

/-- White space, a sign and digits in base 0: whether the number is negative, and its absolute value. -/
def scanNumber (s : List UInt8) : Bool × Nat :=
  let s := s.dropWhile isspace
  let neg := s.head? == some 45
  let (base, s) := baseOf (if neg || s.head? == some 43 then s.tail else s)
  (neg, (s.takeWhile (isDigitOf base)).foldl (fun n c => base * n + (digit c).getD 0) 0)

def strtoull (s : List UInt8) : Nat :=
  let (neg, n) := scanNumber s
  if 2 ^ 64 ≤ n then 2 ^ 64 - 1 else if neg then (2 ^ 64 - n) % 2 ^ 64 else n

/-- The number that a text starts with, in base 0; 0 if there is none. -/
def number (s : List UInt8) : Int :=
  let (neg, n) := scanNumber s
  if neg then -n else n

def strtol (s : List UInt8) : Int :=
  max (-(t.size / 2 : Nat)) (min ((t.size / 2 : Nat) - 1) (number s))

/-- What `strtol` leaves behind the number (`endptr`): all of the text, if there is no digit. -/
def numberEnd (s : List UInt8) : List UInt8 :=
  let s' := s.dropWhile isspace
  let (base, ds) := baseOf (if s'.head? = some 45 ∨ s'.head? = some 43 then s'.tail else s')
  if ds.takeWhile (isDigitOf base) = [] then s else ds.dropWhile (isDigitOf base)

theorem strtol_eq (h : -2 ^ 31 ≤ number s ∧ number s < 2 ^ 31) : strtol t s = number s := by
  have := t.le_size
  unfold strtol
  omega

theorem digitsVal_append (s : List UInt8) (c : UInt8) : digitsVal (s ++ [c]) = 10 * digitsVal s + (c.toNat - 48) := by
  simp [digitsVal]

theorem digitsVal_lt (hs : ∀ c ∈ s, isdigit c) : digitsVal s < 10 ^ s.length := by
  induction s using List.reverseRecOn with
  | nil => decide
  | append_singleton s c ih =>
    have hc : c.toNat - 48 < 10 := by
      have h := hs c (by simp)
      simp only [isdigit, Bool.and_eq_true, decide_eq_true_eq, UInt8.le_iff_toNat_le] at h
      have := h.2
      change c.toNat ≤ 57 at this
      omega
    have := ih fun x hx => hs x (by simp [hx])
    rw [digitsVal_append, length_append, length_singleton, Nat.pow_succ]
    omega

end NuttxApps.Libc
