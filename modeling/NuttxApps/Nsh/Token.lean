import Mathlib.Data.List.Basic

/-!
# The words of a command

`nsh_argument` cuts the next word off a command, with `CONFIG_NSH_QUOTE`, `CONFIG_NSH_ARGCAT`, `CONFIG_NSH_PIPELINE` and
without `CONFIG_NSH_ALIAS`. Reading the command once from left to right with `Mode.step` gives the same words
(`wordsOf_eq`).
-/

namespace NuttxApps.Nsh

open List Option

def tokenSeparator : List Char := [' ', '\t', '\n']

def backQuote : Char := '\x60'

def quoteSeparator : List Char := ['\'', '"', backQuote]

/-- `nsh_strchr`: the first `ch` that no back-slash quotes. `quoted` says that such a back-slash was in front of the
text. -/
def nshStrchr (ch : Char) : Bool → List Char → Option Nat
  | _, [] => none
  | quoted, c :: s =>
    if c = '\\' ∧ quoted = false then (nshStrchr ch true s).map (· + 1)
    else if c = ch ∧ quoted = false then some 0
    else (nshStrchr ch false s).map (· + 1)

/-- `nsh_rmquotes`, of the text from the opening quotation mark on, with the closing one at `qend`. -/
def nshRmquotes (s : List Char) (qend : Nat) : List Char := (s.drop 1).take (qend - 1) ++ s.drop (qend + 1)

/-- A word before its expansion: its text, whether a part of it was in single quotes, so that nothing is expanded, and
in double quotes, so that it stays one word. -/
structure Arg where
  text : List Char
  (squote dquote : Bool)
deriving DecidableEq

def Arg.empty : Arg := ⟨[], false, false⟩

def Arg.pipeline : Arg := ⟨['|'], false, false⟩

def Arg.push (a : Arg) (c : Char) : Arg := { a with text := a.text ++ [c] }

/-- The quotation mark `q` was seen: back-quotes are kept in place. -/
def Arg.quote (a : Arg) (q : Char) : Arg :=
  { text := if q = backQuote then a.text ++ [q] else a.text
    squote := a.squote || q = '\''
    dquote := a.dquote || q = '"' }

/-- The loop of `nsh_argument` with `pend` at the text `s`: the word, and the text behind it. `a.text` is the text from
`pbegin` to `pend`. There is no word if a quotation mark has no other. -/
def argumentLoop : Nat → Arg → Bool → List Char → Option (Arg × List Char)
  | 0, _, _, _ => none
  | _ + 1, a, _, [] => some (a, [])
  | fuel + 1, a, escaped, c :: s =>
    if a.text.getLast? = some '\\' ∧ escaped = false then argumentLoop fuel (a.push c) true s
    else if c = '\\' then argumentLoop fuel (a.push c) false s
    else if c ∈ quoteSeparator then
      match nshStrchr c false s with
      | none => none
      | some k =>
        let a := a.quote c
        if c = backQuote then argumentLoop fuel { a with text := a.text ++ s.take (k + 1) } false (s.drop (k + 1))
        else
          let s := nshRmquotes (c :: s) (k + 1)
          argumentLoop fuel { a with text := a.text ++ s.take k } false (s.drop k)
    else if c ∈ tokenSeparator then some (a, s)
    else argumentLoop fuel (a.push c) false s

/-- `nsh_argument` up to the expansion. What it does with `>` or `<` is undone at once: the last `else` follows the test
for `|` and `#` only. -/
def nshArgument (s : List Char) : Option (Arg × List Char) :=
  match s.dropWhile (· ∈ tokenSeparator) with
  | [] => none
  | c :: s =>
    if c = '|' then some (.pipeline, s)
    else if c = '#' then none
    else argumentLoop (s.length + 2) .empty false (c :: s)

def wordsAux : Nat → List Char → List Arg
  | 0, _ => []
  | fuel + 1, s =>
    match nshArgument s with
    | none => []
    | some (a, s) => a :: wordsAux fuel s

def wordsOf (s : List Char) : List Arg := wordsAux (s.length + 1) s

/-- The reader is between words, in a word (whose last character is escaped or not), in a string that `q` opened, or in
a comment. -/
inductive Mode
  | blank
  | word (a : Arg) (escaped : Bool)
  | quote (a : Arg) (q : Char) (quoted : Bool)
  | comment
deriving DecidableEq

/-- A character of a word: where the reader is behind it, and the word that it ends, if it does. -/
def Mode.inWord (a : Arg) (escaped : Bool) (c : Char) : Mode × Option Arg :=
  if a.text.getLast? = some '\\' ∧ escaped = false then (.word (a.push c) true, none)
  else if c = '\\' then (.word (a.push c) false, none)
  else if c ∈ quoteSeparator then (.quote (a.quote c) c false, none)
  else if c ∈ tokenSeparator then (.blank, some a)
  else (.word (a.push c) false, none)

/-- A character: where the reader is behind it, and the word that it ends or is, if it does. -/
def Mode.step : Mode → Char → Mode × Option Arg
  | .blank, c =>
    if c ∈ tokenSeparator then (.blank, none)
    else if c = '|' then (.blank, some .pipeline)
    else if c = '#' then (.comment, none)
    else Mode.inWord .empty false c
  | .word a escaped, c => Mode.inWord a escaped c
  | .quote a q quoted, c =>
    if c = '\\' ∧ quoted = false then (.quote (a.push c) q true, none)
    else if c = q ∧ quoted = false then (.word (if q = backQuote then a.push c else a) false, none)
    else (.quote (a.push c) q false, none)
  | .comment, _ => (.comment, none)

def Mode.last : Mode → List Arg
  | .word a _ => [a]
  | _ => []

def Mode.after : Mode → List Char → Mode
  | m, [] => m
  | m, c :: s => (m.step c).1.after s

def Mode.ended : Mode → List Char → List Arg
  | _, [] => []
  | m, c :: s => (m.step c).2.toList ++ (m.step c).1.ended s

def Mode.words (m : Mode) (s : List Char) : List Arg := m.ended s ++ (m.after s).last

variable (a : Arg) (q : Char) (quoted : Bool) (m : Mode)

@[simp] theorem Mode.words_nil : m.words [] = m.last := rfl

variable (c : Char) (s : List Char)

theorem Mode.words_cons : m.words (c :: s) = (m.step c).2.toList ++ (m.step c).1.words s := by
  simp [Mode.words, Mode.ended, Mode.after]

theorem Mode.words_append (s t : List Char) : m.words (s ++ t) = m.ended s ++ (m.after s).words t := by
  induction s generalizing m with
  | nil => rfl
  | cons c s ih =>
    rw [cons_append, Mode.words_cons, ih, Mode.ended, Mode.after, append_assoc]

theorem Mode.words_comment : Mode.comment.words s = [] := by
  induction s with
  | nil => rfl
  | cons c s ih =>
    exact ih

theorem Mode.words_dropWhile : Mode.blank.words (s.dropWhile (· ∈ tokenSeparator)) = Mode.blank.words s := by
  induction s with
  | nil => rfl
  | cons c s ih =>
    by_cases h : c ∈ tokenSeparator
    · rw [dropWhile_cons_of_pos (by simpa using h), ih, Mode.words_cons]
      simp [Mode.step, h]
    · rw [dropWhile_cons_of_neg (by simpa using h)]

theorem Mode.words_quote :
    (Mode.quote a q quoted).words s =
      match nshStrchr q quoted s with
      | none => []
      | some k =>
        (Mode.word { a with text := a.text ++ s.take (if q = backQuote then k + 1 else k) } false).words
          (s.drop (k + 1)) := by
  induction s generalizing a quoted with
  | nil => rfl
  | cons c s ih =>
    rw [Mode.words_cons, nshStrchr]
    by_cases hb : c = '\\' ∧ quoted = false
    · rw [show (Mode.quote a q quoted).step c = (.quote (a.push c) q true, none) by simp [Mode.step, hb], ih, if_pos hb]
      cases h : nshStrchr q true s with
      | none => rfl
      | some k => simp only [map_some]; split <;> simp [Arg.push]
    · by_cases hq : c = q ∧ quoted = false
      · rw [show (Mode.quote a q quoted).step c = (.word (if q = backQuote then a.push c else a) false, none) by
          simp only [Mode.step, if_neg hb, if_pos hq], if_neg hb, if_pos hq]
        split <;> simp_all [Arg.push]
      · rw [show (Mode.quote a q quoted).step c = (.quote (a.push c) q false, none) by
          simp only [Mode.step, if_neg hb, if_neg hq], ih, if_neg hb, if_neg hq]
        cases h : nshStrchr q false s with
        | none => rfl
        | some k => simp only [map_some]; split <;> simp [Arg.push]

theorem nshRmquotes_cons {k : Nat} (hk : k < s.length) :
    (nshRmquotes (c :: s) (k + 1)).take k = s.take k ∧ (nshRmquotes (c :: s) (k + 1)).drop k = s.drop (k + 1) := by
  have hl : (s.take k).length = k := length_take_of_le (Nat.le_of_lt hk)
  exact ⟨take_left' hl, drop_left' hl⟩

theorem nshStrchr_lt {ch : Char} {quoted : Bool} {s : List Char} {k : Nat} (h : nshStrchr ch quoted s = some k) :
    k < s.length := by
  fun_induction nshStrchr ch quoted s generalizing k with
  | case1 => simp at h
  | case2 quoted c s hb ih =>
    obtain ⟨j, hj, rfl⟩ := map_eq_some_iff.mp h
    simpa using ih hj
  | case3 quoted c s hb hq =>
    cases some.inj h
    simp
  | case4 quoted c s hb hq ih =>
    obtain ⟨j, hj, rfl⟩ := map_eq_some_iff.mp h
    simpa using ih hj

theorem Mode.words_word (escaped : Bool) (s : List Char) (fuel : Nat) (hf : s.length < fuel) :
    (Mode.word a escaped).words s =
      match argumentLoop fuel a escaped s with
      | none => []
      | some (b, t) => b :: Mode.blank.words t := by
  induction fuel generalizing a escaped s with
  | zero => omega
  | succ fuel ih =>
    cases s with
    | nil => rfl
    | cons c s =>
      have hs : s.length < fuel := by simpa using hf
      have hd (k : Nat) : (s.drop (k + 1)).length < fuel := by rw [length_drop]; omega
      rw [Mode.words_cons, argumentLoop, show (Mode.word a escaped).step c = Mode.inWord a escaped c from rfl,
        Mode.inWord]
      split_ifs with he hb hq hc hsep
      · exact ih _ _ _ hs
      · exact ih _ _ _ hs
      iterate 2
        · show (Mode.quote (a.quote c) c false).words s = _
          rw [Mode.words_quote]
          cases hk : nshStrchr c false s with
          | none => rfl
          | some k =>
            obtain ⟨ht, hr⟩ := nshRmquotes_cons c s (nshStrchr_lt hk)
            simp only [hc, if_true, if_false, ht, hr]
            exact ih _ _ _ (hd k)
      · rfl
      · exact ih _ _ _ hs

theorem Mode.words_blank :
    Mode.blank.words s =
      match nshArgument s with
      | none => []
      | some (a, t) => a :: Mode.blank.words t := by
  rw [← Mode.words_dropWhile, nshArgument]
  cases hs : s.dropWhile (· ∈ tokenSeparator) with
  | nil => rfl
  | cons c t =>
    have hc : c ∉ tokenSeparator := by
      have := head?_dropWhile_not (· ∈ tokenSeparator) s
      simpa [hs] using this
    by_cases hp : c = '|'
    · subst hp
      rfl
    by_cases hh : c = '#'
    · subst hh
      exact Mode.words_comment t
    simp only [if_neg hp, if_neg hh]
    rw [← Mode.words_word .empty false (c :: t) (t.length + 2) (by simp), Mode.words_cons, Mode.words_cons]
    simp only [Mode.step, if_neg hc, if_neg hp, if_neg hh]

theorem argumentLoop_length {fuel : Nat} {a b : Arg} {escaped : Bool} {s t : List Char}
    (h : argumentLoop fuel a escaped s = some (b, t)) : t.length ≤ s.length - 1 := by
  fun_induction argumentLoop fuel a escaped s with
  | case1 => simp at h
  | case2 => simp_all
  | case3 fuel a escaped c s _ ih | case4 fuel a escaped s _ ih | case9 fuel a escaped c s _ _ _ _ ih =>
    have := ih h
    simp only [length_cons]
    omega
  | case5 => simp at h
  | case6 fuel a escaped s _ k _ _ _ _ ih =>
    have := ih h
    simp only [length_drop, length_cons] at this ⊢
    omega
  | case7 fuel a escaped c s _ _ _ k hk _ _ _ ih =>
    have := ih h
    rw [(nshRmquotes_cons c s (nshStrchr_lt hk)).2] at this
    simp only [length_drop, length_cons] at this ⊢
    omega
  | case8 => simp_all

theorem nshArgument_length {a : Arg} {s t : List Char} (h : nshArgument s = some (a, t)) : t.length < s.length := by
  have hd : (s.dropWhile (· ∈ tokenSeparator)).length ≤ s.length := (dropWhile_sublist _).length_le
  rw [nshArgument] at h
  cases hs : s.dropWhile (· ∈ tokenSeparator) with
  | nil => simp [hs] at h
  | cons c u =>
    rw [hs, length_cons] at hd
    simp only [hs] at h
    split at h
    · cases h
      exact hd
    · split at h
      · cases h
      · have := argumentLoop_length h
        rw [length_cons] at this
        omega

theorem wordsOf_eq : wordsOf s = Mode.blank.words s := by
  have aux (fuel : Nat) : ∀ s : List Char, s.length < fuel → wordsAux fuel s = Mode.blank.words s := by
    induction fuel with
    | zero => intro s hs; omega
    | succ fuel ih =>
      intro s hs
      rw [wordsAux, Mode.words_blank]
      cases h : nshArgument s with
      | none => rfl
      | some r =>
        have := nshArgument_length (t := r.2) h
        simp only [ih r.2 (by omega)]
  exact aux _ s (Nat.lt_succ_self _)

theorem Arg.length_quote : a.text.length ≤ (a.quote q).text.length := by
  rw [Arg.quote]
  split <;> simp

def Mode.open : Mode → List Char
  | .word a _ => a.text
  | .quote a _ _ => a.text
  | _ => []

theorem Mode.step_open :
    ((m.step c).2 = none ∧ m.open.length ≤ (m.step c).1.open.length) ∨
      ∃ a, (m.step c).2 = some a ∧ m.open.length ≤ a.text.length := by
  have inWord (a : Arg) (escaped : Bool) :
      ((Mode.inWord a escaped c).2 = none ∧ a.text.length ≤ (Mode.inWord a escaped c).1.open.length) ∨
        ∃ b, (Mode.inWord a escaped c).2 = some b ∧ a.text.length ≤ b.text.length := by
    have hq := a.length_quote c
    unfold Mode.inWord
    split_ifs <;> simp [Mode.open, Arg.push, hq]
  cases m with
  | blank =>
    cases h : (Mode.blank.step c).2 with
    | none => exact .inl ⟨rfl, Nat.zero_le _⟩
    | some a => exact .inr ⟨a, rfl, Nat.zero_le _⟩
  | comment => exact .inl ⟨rfl, Nat.zero_le _⟩
  | word a escaped => exact inWord a escaped
  | quote a q quoted =>
    refine .inl ?_
    simp only [Mode.step]
    split_ifs <;> simp [Mode.open, Arg.push]

theorem Mode.length_open {m : Mode} {s : List Char} {b : Arg} (h : b ∈ (m.words s).head?) :
    m.open.length ≤ b.text.length := by
  induction s generalizing m with
  | nil =>
    cases m with
    | word a escaped =>
      obtain rfl : a = b := by simpa [Mode.last] using h
      exact .refl
    | blank | quote | comment => simp [Mode.last] at h
  | cons c s ih =>
    rw [Mode.words_cons] at h
    rcases m.step_open c with ⟨hn, hle⟩ | ⟨a, ha, hle⟩
    · rw [hn] at h
      exact Nat.le_trans hle (ih h)
    · obtain rfl : a = b := by simpa [ha] using h
      exact hle

/-- What is left gives no word: it begins with `#`, or the next word has a string that is not closed. -/
def Mode.Ends : Mode → List Char → Prop
  | .blank, _ => True
  | .comment, _ => True
  | .word _ _, _ => False
  | .quote a q quoted, s => (Mode.quote a q quoted).words s = []

theorem Mode.words_hash_iff (r : List Char) : m.words ('#' :: r) = m.last ↔ m.Ends ('#' :: r) := by
  cases m with
  | blank =>
    exact iff_of_true (Mode.words_comment r) trivial
  | comment => exact iff_of_true (Mode.words_comment _) trivial
  | quote a q quoted => rfl
  | word a escaped =>
    refine iff_of_false (fun h => ?_) id
    have hstep : ∃ e, (Mode.word a escaped).step '#' = (.word (a.push '#') e, none) := by
      by_cases he : a.text.getLast? = some '\\' ∧ escaped = false
      · exact ⟨true, if_pos he⟩
      · exact ⟨false, if_neg he⟩
    obtain ⟨e, he⟩ := hstep
    rw [Mode.words_cons, he] at h
    have hlen : (Mode.word (a.push '#') e).open.length ≤ a.text.length :=
      Mode.length_open (s := r) (by rw [show (Mode.word (a.push '#') e).words r = [a] from h]; rfl)
    simp only [Mode.open, Arg.push, length_append, length_singleton] at hlen
    omega

end NuttxApps.Nsh
