import NuttxApps.Framework.Libc

/-!
# Lookups in INI files

`nextch` and what is left behind it in the stream are one list here, `todo`. `lookup` says over the lines of the file
what a lookup is for. `inifile_read_variable` takes a blank line for the end of the section; `readString_eq_iff` says
where this shows.
-/

namespace NuttxApps.Inifile

open Libc Option
open List hiding max

structure Handle where
  (file todo : List UInt8)

def nextLine (todo : List UInt8) : List UInt8 := (todo.dropWhile (· ≠ 10)).tail

def readLoop (max : Nat) (line : List UInt8) : List UInt8 → List UInt8 × List UInt8
  | [] => (line, [])
  | c :: s =>
    if line.length < max ∧ c ≠ 10 then
      readLoop max (if c ≠ 13 ∧ (line ≠ [] ∨ (c ≠ 32 ∧ c ≠ 9)) then line ++ [c] else line) s
    else (line, c :: s)

variable (max : Nat)

/-- `inifile_read_line`, with `CONFIG_FSUTILS_INIFILE_MAXLINE` for `max`. -/
def readLine (todo : List UInt8) : List UInt8 × List UInt8 :=
  let (line, todo) := readLoop max [] todo
  (line, if todo ≠ [] then nextLine todo else todo)

variable (line : List UInt8)

def isComment : Bool := line.head? == some 59

def readNoncommentLine (max : Nat) : Nat → List UInt8 → List UInt8 × List UInt8
  | 0, todo => ([], todo)
  | fuel + 1, todo =>
    let (line, todo) := readLine max todo
    if line ≠ [] ∧ isComment line then readNoncommentLine max fuel todo else (line, todo)

/-- The header of the section: the name ends at the right bracket, or with the line. -/
def isHeader (sect line : List UInt8) : Bool :=
  decide (3 ≤ line.length) && line.head? == some 91 && strcasecmp ((cstr line.tail).takeWhile (· ≠ 93)) sect

def seekLoop (max : Nat) (sect : List UInt8) : Nat → List UInt8 → Option (List UInt8)
  | 0, _ => none
  | fuel + 1, todo =>
    let (line, todo) := readNoncommentLine max (todo.length + 1) todo
    if isHeader sect line then some todo
    else if todo ≠ [] then seekLoop max sect fuel todo else none

/-- The name and the value of a line with a `=` behind its first character. -/
def assignment : Option (List UInt8 × List UInt8) :=
  let t := cstr line.tail
  if 61 ∈ t then some (cstr (line.take 1 ++ t.takeWhile (· ≠ 61)), (t.dropWhile (· ≠ 61)).tail) else none

def readVariable (max : Nat) : Nat → List UInt8 → Option (List UInt8 × List UInt8) × List UInt8
  | 0, todo => (none, todo)
  | fuel + 1, todo =>
    let (line, todo) := readNoncommentLine max (todo.length + 1) todo
    if line = [] ∨ line.head? = some 91 then (none, todo)
    else match assignment line with
      | some a => (some a, todo)
      | none => readVariable max fuel todo

def findSectionVariable (max : Nat) (var : List UInt8) : Nat → List UInt8 → Option (List UInt8) × List UInt8
  | 0, todo => (none, todo)
  | fuel + 1, todo =>
    match readVariable max (todo.length + 1) todo with
    | (none, todo) => (none, todo)
    | (some (name, value), todo) =>
      if strcasecmp name var then (some value, todo) else findSectionVariable max var fuel todo

def findVariable (h : Handle) (sect var : List UInt8) : Option (List UInt8) × Handle :=
  -- `rewind`
  match seekLoop max sect (h.file.length + 1) h.file with
  | none => (none, { h with todo := [] })
  | some todo =>
    let (value, todo) := findSectionVariable max var (todo.length + 1) todo
    (value.filter (· ≠ []), { h with todo })

def readString (h : Handle) (sect var : List UInt8) (defvalue : Option (List UInt8)) : Option (List UInt8) × Handle :=
  let (value, h) := findVariable max h sect var
  (value.or defvalue, h)

def clean : List UInt8 :=
  ((line.filter (· ≠ 13)).dropWhile fun c => c = 32 ∨ c = 9).take max

def textLines (file : List UInt8) : List (List UInt8) :=
  ((lines file).map (clean max)).filter (!isComment ·)

def sectionLines (file sect : List UInt8) : List (List UInt8) :=
  ((textLines max file).dropWhile (!isHeader sect ·)).tail.takeWhile (·.head? ≠ some 91)

def valueOf (var line : List UInt8) : Option (List UInt8) :=
  (assignment line).bind fun a => if strcasecmp a.1 var then some a.2 else none

section

variable (file sect var : List UInt8)

/-- The value of a variable in the first section with a name, if it is not empty. -/
def lookup : Option (List UInt8) :=
  ((sectionLines max file sect).findSome? (valueOf var)).filter (· ≠ [])

def BlankBefore : Prop :=
  [] ∈ (sectionLines max file sect).takeWhile (valueOf var · = none) ∧
    lookup max file sect var ≠ none

end

section

variable {max : Nat} {sect var : List UInt8}

theorem nextLine_readLoop (line s : List UInt8) : nextLine (readLoop max line s).2 = nextLine s := by
  induction s generalizing line with
  | nil => rfl
  | cons c s ih =>
    rw [readLoop]
    split
    · rename_i h
      rw [ih]
      simp [nextLine, h.2]
    · rfl

theorem readLoop_line {line : List UInt8} (hline : line.length ≤ max) (s : List UInt8) :
    (readLoop max line s).1 =
      (line ++ (if line = [] then ((s.takeWhile (· ≠ 10)).filter (· ≠ 13)).dropWhile fun c => c = 32 ∨ c = 9
        else (s.takeWhile (· ≠ 10)).filter (· ≠ 13))).take max := by
  induction s generalizing line with
  | nil => simp [readLoop, take_of_length_le hline]
  | cons c s ih =>
    by_cases hc : c = 10
    · simp [readLoop, hc, take_of_length_le hline]
    rw [readLoop, takeWhile_cons_of_pos (by simpa using hc)]
    by_cases hlen : line.length < max
    · have hlength : (line ++ [c]).length ≤ max := by simp; omega
      rw [if_pos ⟨hlen, hc⟩, ih (by split <;> assumption)]
      by_cases hcr : c = 13
      · simp [hcr]
      rw [filter_cons_of_pos (by simpa using hcr)]
      by_cases hnil : line = []
      · subst hnil
        by_cases hblank : c = 32 ∨ c = 9
        · rw [if_neg (by grind), if_pos rfl, if_pos rfl, dropWhile_cons_of_pos (by simpa using hblank)]
        · rw [if_pos ⟨hcr, .inr (not_or.mp hblank)⟩, if_pos rfl, dropWhile_cons_of_neg (by simpa using hblank)]
          simp
      · simp [hcr, hnil]
    · rw [if_neg (by simp [hlen]), take_append_of_le_length (by omega), take_of_length_le hline]

theorem readLine_eq (todo : List UInt8) : readLine max todo = (clean max (todo.takeWhile (· ≠ 10)), nextLine todo) := by
  have hline : (readLoop max [] todo).1 = clean max (todo.takeWhile (· ≠ 10)) := readLoop_line (Nat.zero_le _) todo
  have hnext : (if (readLoop max [] todo).2 ≠ [] then nextLine (readLoop max [] todo).2 else (readLoop max [] todo).2) =
      nextLine todo := by
    rw [← nextLine_readLoop [] todo]
    split_ifs with h
    · rfl
    · rw [not_not.mp h]
      rfl
  exact Prod.ext hline hnext

section

variable (max : Nat) (todo : List UInt8)

def linesLeft : List (List UInt8) := (lines todo).map (clean max)

theorem readLine_lines :
    (readLine max todo).1 = (linesLeft max todo).headD [] ∧
      linesLeft max (readLine max todo).2 = (linesLeft max todo).tail := by
  rw [readLine_eq]
  by_cases h : todo = []
  · subst h
    simp [linesLeft, lines, nextLine, clean]
  · simp only [linesLeft, lines_eq_cons h, map_cons, headD_cons, tail_cons]
    exact ⟨trivial, rfl⟩

theorem length_linesLeft_le : (linesLeft max todo).length ≤ todo.length := by
  rw [linesLeft, length_map]
  induction todo with
  | nil => simp [lines]
  | cons c s ih =>
    rw [lines]
    split
    · simpa using ih
    · split
      · simp
      · simp_all
        omega

end

theorem readNoncommentLine_lines (max fuel : Nat) (todo : List UInt8) (hfuel : (linesLeft max todo).length < fuel) :
    (readNoncommentLine max fuel todo).1 = ((linesLeft max todo).dropWhile isComment).headD [] ∧
      linesLeft max (readNoncommentLine max fuel todo).2 = ((linesLeft max todo).dropWhile isComment).tail := by
  induction fuel generalizing todo with
  | zero => simp at hfuel
  | succ fuel ih =>
    obtain ⟨hline, hrest⟩ := readLine_lines max todo
    simp only [readNoncommentLine]
    cases hls : linesLeft max todo with
    | nil =>
      rw [hls] at hline hrest
      simp [hline, hrest, isComment]
    | cons l ls =>
      rw [hls] at hline hrest hfuel
      simp only [headD_cons, tail_cons, length_cons] at hline hrest hfuel
      by_cases hl : isComment l = true
      · have hnil : l ≠ [] := by rintro rfl; simp [isComment] at hl
        rw [hline, if_pos ⟨hnil, hl⟩, dropWhile_cons_of_pos hl, ← hrest]
        exact ih _ (by rw [hrest]; omega)
      · rw [hline, if_neg (by simp [hl]), dropWhile_cons_of_neg hl]
        exact ⟨rfl, hrest⟩

theorem linesLeft_eq_nil {todo : List UInt8} (h : linesLeft max todo = []) : todo = [] := by
  by_contra hne
  simp [linesLeft, lines_eq_cons hne] at h

theorem readNoncommentLine_cases (max : Nat) (todo : List UInt8) :
    ((linesLeft max todo).dropWhile isComment = [] ∧ readNoncommentLine max (todo.length + 1) todo = ([], [])) ∨
      ∃ l ls todo', (linesLeft max todo).dropWhile isComment = l :: ls ∧ isComment l = false ∧
        linesLeft max todo' = ls ∧ readNoncommentLine max (todo.length + 1) todo = (l, todo') := by
  have hfuel := length_linesLeft_le max todo
  have hhead := head?_dropWhile_not isComment (linesLeft max todo)
  obtain ⟨hline, hrest⟩ := readNoncommentLine_lines max (todo.length + 1) todo (by omega)
  cases hls : (linesLeft max todo).dropWhile isComment with
  | nil =>
    rw [hls] at hline hrest
    exact .inl ⟨rfl, Prod.ext hline (linesLeft_eq_nil hrest)⟩
  | cons l ls =>
    rw [hls] at hline hrest hhead
    exact .inr ⟨l, ls, _, rfl, by simpa using hhead, hrest, Prod.ext hline rfl⟩

theorem dropWhile_comment_header (ls : List (List UInt8)) :
    (ls.dropWhile isComment).dropWhile (!isHeader sect ·) = ls.dropWhile (!isHeader sect ·) := by
  induction ls with
  | nil => rfl
  | cons l ls ih =>
    by_cases hl : isComment l = true
    · have hh : isHeader sect l = false := by
        simp only [isComment, beq_iff_eq] at hl
        simp [isHeader, hl]
      rw [dropWhile_cons_of_pos hl, ih, dropWhile_cons_of_pos (by simp [hh])]
    · rw [dropWhile_cons_of_neg hl]

theorem seekLoop_lines (max : Nat) (sect : List UInt8) (fuel : Nat) (todo : List UInt8)
    (hfuel : (linesLeft max todo).length < fuel) :
    (seekLoop max sect fuel todo).map (linesLeft max) = ((linesLeft max todo).dropWhile (!isHeader sect ·)).tail? := by
  induction fuel generalizing todo with
  | zero => simp at hfuel
  | succ fuel ih =>
    rw [← dropWhile_comment_header, seekLoop]
    obtain ⟨hls, hread⟩ | ⟨l, ls, todo', hls, hcomment, hrest, hread⟩ := readNoncommentLine_cases max todo
    · rw [hls, hread]
      simp [isHeader]
    · have hle := (dropWhile_suffix isComment (l := linesLeft max todo)).length_le
      rw [hls, length_cons] at hle
      rw [hls, hread]
      by_cases hl : isHeader sect l = true
      · simp [hl, hrest]
      · rw [Bool.not_eq_true] at hl
        simp only [hl, Bool.false_eq_true, if_false]
        rw [dropWhile_cons_of_pos (by simp [hl])]
        by_cases hnil : todo' = []
        · subst hnil
          simp [← hrest, linesLeft, lines]
        · rw [if_pos hnil, ih todo' (by rw [hrest]; omega), hrest]

def scan (var : List UInt8) : List (List UInt8) → Option (List UInt8)
  | [] => none
  | l :: ls =>
    if isComment l then scan var ls
    else if l = [] ∨ l.head? = some 91 then none
    else (valueOf var l).or (scan var ls)

theorem scan_dropWhile (ls : List (List UInt8)) : scan var (ls.dropWhile isComment) = scan var ls := by
  induction ls with
  | nil => rfl
  | cons l ls ih =>
    by_cases hl : isComment l = true
    · rw [dropWhile_cons_of_pos hl, ih, scan, if_pos hl]
    · rw [dropWhile_cons_of_neg hl]

section

variable (max : Nat) (var : List UInt8) (fuel : Nat) (todo : List UInt8) (hfuel : (linesLeft max todo).length < fuel)

include hfuel

theorem readVariable_lines : match readVariable max fuel todo with
    | (none, _) => scan var (linesLeft max todo) = none
    | (some a, todo') => (linesLeft max todo').length < (linesLeft max todo).length ∧
        scan var (linesLeft max todo) = if strcasecmp a.1 var then some a.2 else scan var (linesLeft max todo') := by
  induction fuel generalizing todo with
  | zero => simp at hfuel
  | succ fuel ih =>
    rw [readVariable, ← scan_dropWhile (linesLeft max todo)]
    obtain ⟨hls, hread⟩ | ⟨l, ls, todo', hls, hcomment, hrest, hread⟩ := readNoncommentLine_cases max todo
    · rw [hls, hread]
      rfl
    · have hle := (dropWhile_suffix isComment (l := linesLeft max todo)).length_le
      rw [hls, length_cons] at hle
      rw [hls, hread, scan, if_neg (by simp [hcomment])]
      by_cases hend : l = [] ∨ l.head? = some 91
      · simp only [if_pos hend]
      · simp only [if_neg hend, valueOf]
        cases hassign : assignment l with
        | none =>
          have hih := ih todo' (by rw [hrest]; omega)
          rw [hrest] at hih
          simp only [bind_none, none_or]
          split at hih
          · exact hih
          · exact ⟨by omega, hih.2⟩
        | some a =>
          refine ⟨by rw [hrest]; omega, ?_⟩
          simp only [bind_some, hrest]
          split <;> simp

theorem findSectionVariable_lines : (findSectionVariable max var fuel todo).1 = scan var (linesLeft max todo) := by
  induction fuel generalizing todo with
  | zero => simp at hfuel
  | succ fuel ih =>
    have hread := readVariable_lines max var (todo.length + 1) todo (Nat.lt_succ_of_le (length_linesLeft_le max todo))
    rw [findSectionVariable]
    split at hread
    · rename_i heq
      simp only [heq, hread]
    · rename_i a todo' heq
      obtain ⟨hlt, hscan⟩ := hread
      simp only [heq, hscan]
      split
      · rfl
      · exact ih todo' (by omega)

end

theorem scan_eq (ls : List (List UInt8)) :
    scan var ls =
      (((ls.filter (!isComment ·)).takeWhile (·.head? ≠ some 91)).takeWhile (· ≠ [])).findSome? (valueOf var) := by
  induction ls with
  | nil => rfl
  | cons l ls ih =>
    rw [scan]
    by_cases hl : isComment l = true
    · rw [if_pos hl, ih, filter_cons_of_neg (by simp [hl])]
    · rw [if_neg hl, filter_cons_of_pos (by simpa using hl)]
      by_cases hhead : l.head? = some 91
      · simp [hhead]
      · by_cases hnil : l = []
        · simp [hnil]
        · rw [takeWhile_cons_of_pos (by simpa using hhead), takeWhile_cons_of_pos (by simpa using hnil),
            findSome?_cons, if_neg (by simp [hnil, hhead]), ih]
          cases valueOf var l <;> rfl

theorem filter_dropWhile_header (ls : List (List UInt8)) :
    ((ls.filter (!isComment ·)).dropWhile (!isHeader sect ·)).tail =
      ((ls.dropWhile (!isHeader sect ·)).tail).filter (!isComment ·) := by
  induction ls with
  | nil => rfl
  | cons l ls ih =>
    by_cases hh : isHeader sect l = true
    · have hl : isComment l = false := by
        simp only [isHeader, Bool.and_eq_true, beq_iff_eq] at hh
        simp [isComment, hh.1.2]
      rw [filter_cons_of_pos (by simp [hl]), dropWhile_cons_of_neg (by simp [hh]), dropWhile_cons_of_neg (by simp [hh])]
      rfl
    · rw [dropWhile_cons_of_pos (by simpa using hh), ← ih]
      by_cases hl : isComment l = true
      · rw [filter_cons_of_neg (by simp [hl])]
      · rw [filter_cons_of_pos (by simpa using hl), dropWhile_cons_of_pos (by simpa using hh)]

theorem findVariable_eq (max : Nat) (h : Handle) (sect var : List UInt8) :
    (findVariable max h sect var).1 =
      (((sectionLines max h.file sect).takeWhile (· ≠ [])).findSome? (valueOf var)).filter (· ≠ []) := by
  have hseek := seekLoop_lines max sect (h.file.length + 1) h.file (Nat.lt_succ_of_le (length_linesLeft_le max _))
  unfold findVariable sectionLines textLines
  rw [filter_dropWhile_header, show (lines h.file).map (clean max) = linesLeft max h.file from rfl]
  cases hs : seekLoop max sect (h.file.length + 1) h.file with
  | none =>
    rw [hs, map_none] at hseek
    cases hls : (linesLeft max h.file).dropWhile (!isHeader sect ·) with
    | nil => rfl
    | cons l ls => simp [hls] at hseek
  | some todo =>
    rw [hs, map_some] at hseek
    have htail : ((linesLeft max h.file).dropWhile (!isHeader sect ·)).tail = linesLeft max todo := by
      rw [tail_eq_tail?, ← hseek]
      rfl
    have hfind := findSectionVariable_lines max var (todo.length + 1) todo
      (Nat.lt_succ_of_le (length_linesLeft_le max _))
    rw [htail, ← scan_eq, ← hfind]

theorem findSome?_takeWhile {f : List UInt8 → Option (List UInt8)} (hf : f [] = none) (ls : List (List UInt8)) :
    (ls.takeWhile (· ≠ [])).findSome? f = if [] ∈ ls.takeWhile (f · = none) then none else ls.findSome? f := by
  induction ls with
  | nil => rfl
  | cons l ls ih =>
    by_cases hl : l = []
    · simp [hl, hf]
    · rw [takeWhile_cons_of_pos (by simpa using hl), findSome?_cons, findSome?_cons]
      cases hv : f l with
      | none =>
        rw [takeWhile_cons_of_pos (by simpa using hv)]
        simpa [Ne.symm hl] using ih
      | some v => simp [hv]

/-- A lookup returns the value of the variable in the first section with the name, or else the default, exactly if no
blank line of the section stands before the line with the value. -/
theorem readString_eq_iff (max : Nat) (h : Handle) (sect var : List UInt8) :
    (∀ defvalue, (readString max h sect var defvalue).1 = (lookup max h.file sect var).or defvalue) ↔
      ¬ BlankBefore max h.file sect var := by
  have hcode := (findVariable_eq max h sect var).trans
    (congrArg (Option.filter (· ≠ [])) (findSome?_takeWhile rfl (sectionLines max h.file sect)))
  have hiff : (∀ defvalue, (readString max h sect var defvalue).1 = (lookup max h.file sect var).or defvalue) ↔
      (findVariable max h sect var).1 = lookup max h.file sect var := by
    refine ⟨fun heq => ?_, fun heq defvalue => by rw [← heq]; rfl⟩
    simpa [readString] using heq none
  rw [hiff, hcode, BlankBefore, lookup]
  by_cases hb : [] ∈ (sectionLines max h.file sect).takeWhile (valueOf var · = none)
  · simp only [hb, if_true, true_and, filter_none, not_not]
    exact eq_comm
  · simp [hb]

end

/-- `[s]`, a blank line, `x=1`: the lookup of `x` in `s` returns the default. -/
theorem blank_line_hides :
    (readString 256 ⟨[91, 115, 93, 10, 10, 120, 61, 49, 10], []⟩ [115] [120] (some [48])).1 = some [48] ∧
      lookup 256 [91, 115, 93, 10, 10, 120, 61, 49, 10] [115] [120] = some [49] := by
  decide +kernel

/-- Without the blank line: `[S]`, `;x=2`, ` X=1\r`. -/
example : (readString 256 ⟨[91, 83, 93, 10, 59, 120, 61, 50, 10, 32, 88, 61, 49, 13, 10], []⟩ [115] [120] none).1 =
    some [49] := by
  decide +kernel

end NuttxApps.Inifile
