import NuttxApps.Nsh.Parser
import NuttxApps.Nsh.Token
import Mathlib.Algebra.GroupWithZero.Nat

/-!
# The commands of a line

`nsh_parse` cuts a line into commands at its semicolons, until one of them fails or makes the script jump. The offset
that it keeps as the start of the command is that of the place where the scanner went on last (`topoffs_iff`). And `#`
ends the line for the scanner wherever it stands outside quotes, but for `nsh_argument` only where a word would begin
(`comment_iff`).
-/

namespace NuttxApps.Nsh

open Option

open List hiding le

def lineSeparator : List Char := ['"', '\'', '#', ';', '\n']

/-- What the scanner finds in the text of a command: where it went on last (`working`), the character that ends the
command, and whether it is the last of its line; or a quotation mark that has no other. Places are counted from the
start of the command. -/
inductive Scan
  | found (working len : Nat) (last : Bool)
  | unmatched (q : Char)
deriving DecidableEq

/-- The loop of `nsh_parse` within a command; `prev` is the character in front of `working`. -/
def scanLoop : Nat → Option Char → Nat → List Char → Scan
  | 0, _, working, _ => .found working working true
  | fuel + 1, prev, working, s =>
    let text := s.takeWhile (· ∉ lineSeparator)
    let ptr := working + text.length
    match s.dropWhile (· ∉ lineSeparator) with
    | [] => .found working ptr true
    | c :: rest =>
      if c = '\n' ∨ c = '#' then .found working ptr true
      else if c = ';' then .found working ptr false
      else if text.getLast?.or prev = some '\\' then scanLoop fuel s.head? (working + 1) s.tail
      else
        match nshStrchr c false rest with
        | none => .unmatched c
        | some k => scanLoop fuel (some c) (ptr + 1 + k + 1) (rest.drop (k + 1))

def scanCommand (s : List Char) : Scan := scanLoop (s.length + 1) none 0 s

section Parse

variable {σ : Type} (jump : σ → Bool) (exec : σ → Nat → List Arg → σ × Bool)

/-- The loop of `nsh_parse` from the command at `start` on. `exec` is `nsh_parse_command`, which gets the words and
`np_loffs`; it returns whether it was `OK`, and leaves `np_jump`. -/
def nshParseLoop : Nat → σ → Nat → List Char → σ × Bool
  | 0, st, _, _ => (st, false)
  | fuel + 1, st, start, s =>
    match scanCommand s with
    | .unmatched _ => (st, false)
    | .found working _ true => exec st ((start + working) % 2 ^ 16) (wordsOf s)
    | .found working len false =>
      let r := exec st ((start + working) % 2 ^ 16) (wordsOf (s.take len))
      if r.2 = false then r
      else if jump r.1 then (r.1, true)
      else nshParseLoop fuel r.1 (start + len + 1) (s.drop (len + 1))

def nshParse (st : σ) (cmdline : List Char) : σ × Bool := nshParseLoop jump exec (cmdline.length + 1) st 0 cmdline

end Parse

/-- A command of a line: where it begins, where the scanner went on last in it and where it ends, counted from there,
its text, and whether it is the last one. -/
structure Command where
  (start working len : Nat)
  text : List Char
  last : Bool
deriving DecidableEq

def Command.loffs (c : Command) : Nat := (c.start + c.working) % 2 ^ 16

def Command.body (c : Command) : List Char := c.text.take c.len

def commandsFrom : Nat → Nat → List Char → List Command
  | 0, _, _ => []
  | fuel + 1, start, s =>
    match scanCommand s with
    | .unmatched _ => []
    | .found working len true => [⟨start, working, len, s, true⟩]
    | .found working len false =>
      ⟨start, working, len, s.take len, false⟩ :: commandsFrom fuel (start + len + 1) (s.drop (len + 1))

def commands (line : List Char) : List Command := commandsFrom (line.length + 1) 0 line

section Run

variable {σ : Type} (jump : σ → Bool) (exec : σ → Nat → List Arg → σ × Bool)

def runCommands : σ → List Command → σ × Bool
  | st, [] => (st, false)
  | st, c :: cs =>
    let r := exec st c.loffs (wordsOf c.text)
    if c.last then r
    else if r.2 = false then r
    else if jump r.1 then (r.1, true)
    else runCommands r.1 cs

theorem nshParse_eq (st : σ) (line : List Char) :
    nshParse jump exec st line = runCommands jump exec st (commands line) := by
  have aux (fuel : Nat) : ∀ (st : σ) (start : Nat) (s : List Char),
      nshParseLoop jump exec fuel st start s = runCommands jump exec st (commandsFrom fuel start s) := by
    induction fuel with
    | zero => intros; rfl
    | succ fuel ih =>
      intro st start s
      rw [nshParseLoop, commandsFrom]
      cases scanCommand s with
      | unmatched q => rfl
      | found working len last =>
        cases last with
        | true => rfl
        | false =>
          simp only [ih, runCommands, Bool.false_eq_true, if_false]
          rfl
  exact aux _ st 0 line

theorem runCommands_congr {c c' : Command} (hloffs : c.loffs = c'.loffs) (hwords : wordsOf c.text = wordsOf c'.text)
    (hlast : c.last = c'.last) (st : σ) (cs : List Command) :
    runCommands jump exec st (cs ++ [c]) = runCommands jump exec st (cs ++ [c']) := by
  induction cs generalizing st with
  | nil => simp only [nil_append, runCommands, hloffs, hwords, hlast]
  | cons d cs ih => simp only [cons_append, runCommands, ih]

end Run

/-- The scanner is outside of a string, behind the character `prev`, or in a string that `q` opened. -/
inductive Place
  | text (prev : Option Char)
  | quote (q : Char) (quoted : Bool)

def Place.next : Place → Char → Place
  | .text prev, c => if (c = '"' ∨ c = '\'') ∧ prev ≠ some '\\' then .quote c false else .text (some c)
  | .quote q quoted, c =>
    if c = '\\' ∧ quoted = false then .quote q true
    else if c = q ∧ quoted = false then .text (some c)
    else .quote q false

def Place.scan : Place → Nat → Nat → List Char → Scan
  | .text _, working, i, [] => .found working i true
  | .quote q _, _, _, [] => .unmatched q
  | .text prev, working, i, c :: s =>
    if c = '\n' ∨ c = '#' then .found working i true
    else if c = ';' then .found working i false
    else if (c = '"' ∨ c = '\'') ∧ prev = some '\\' then ((Place.text prev).next c).scan (i + 1) (i + 1) s
    else ((Place.text prev).next c).scan working (i + 1) s
  | .quote q quoted, working, i, c :: s =>
    if c = q ∧ quoted = false ∧ c ≠ '\\' then ((Place.quote q quoted).next c).scan (i + 1) (i + 1) s
    else ((Place.quote q quoted).next c).scan working (i + 1) s

variable (fuel : Nat) (prev : Option Char) {place : Place} {c : Char}

theorem mem_lineSeparator : c ∈ lineSeparator ↔ (c = '\n' ∨ c = '#') ∨ c = ';' ∨ c = '"' ∨ c = '\'' := by
  simp only [lineSeparator, mem_cons, not_mem_nil, or_false]
  tauto

theorem getLast?_cons_or (c : Char) (s : List Char) (prev : Option Char) :
    (c :: s).getLast?.or prev = s.getLast?.or (some c) := by
  cases s with
  | nil => rfl
  | cons d s => simp [getLast?_cons]

theorem Place.scan_text (working i : Nat) (s : List Char) :
    (Place.text prev).scan working i s =
      (Place.text ((s.takeWhile (· ∉ lineSeparator)).getLast?.or prev)).scan working
        (i + (s.takeWhile (· ∉ lineSeparator)).length) (s.dropWhile (· ∉ lineSeparator)) := by
  induction s generalizing prev i with
  | nil => rfl
  | cons c s ih =>
    by_cases h : c ∈ lineSeparator
    · rw [takeWhile_cons_of_neg (by simpa using h), dropWhile_cons_of_neg (by simpa using h)]
      rfl
    · rw [takeWhile_cons_of_pos (by simpa using h), dropWhile_cons_of_pos (by simpa using h)]
      obtain ⟨hend, hsemi, hquote⟩ : ¬ (c = '\n' ∨ c = '#') ∧ ¬ c = ';' ∧ ¬ (c = '"' ∨ c = '\'') := by
        simpa only [mem_lineSeparator, not_or] using h
      rw [Place.scan, if_neg hend, if_neg hsemi, if_neg (fun h => hquote h.1), Place.next,
        if_neg (fun h => hquote h.1), ih]
      congr 1
      · rw [getLast?_cons_or]
      · simp only [length_cons]
        omega

theorem Place.scan_quote {q : Char} (hq : q ≠ '\\') (quoted : Bool) (working i : Nat) (s : List Char) :
    (Place.quote q quoted).scan working i s =
      match nshStrchr q quoted s with
      | none => .unmatched q
      | some k => (Place.text (some q)).scan (i + k + 1) (i + k + 1) (s.drop (k + 1)) := by
  induction s generalizing quoted i with
  | nil => rfl
  | cons c s ih =>
    have hshift (k : Nat) : i + 1 + k + 1 = i + (k + 1) + 1 := by omega
    rw [Place.scan, Place.next, nshStrchr]
    by_cases hb : c = '\\' ∧ quoted = false
    · rw [if_neg (fun h => h.2.2 hb.1), if_pos hb, if_pos hb, ih]
      cases nshStrchr q true s <;> simp only [Option.map, drop_succ_cons, hshift]
    by_cases hc : c = q ∧ quoted = false
    · rw [if_pos ⟨hc.1, hc.2, hc.1 ▸ hq⟩, if_neg hb, if_pos hc, if_neg hb, if_pos hc, hc.1]
      rfl
    · rw [if_neg (fun h => hc ⟨h.1, h.2.1⟩), if_neg hb, if_neg hc, if_neg hb, if_neg hc, ih]
      cases nshStrchr q false s <;> simp only [Option.map, drop_succ_cons, hshift]

theorem Place.scan_escaped {s rest : List Char} {c : Char} (prev : Option Char) (working : Nat)
    (hs : s.dropWhile (· ∉ lineSeparator) = c :: rest) (hc : c = '"' ∨ c = '\'')
    (he : (s.takeWhile (· ∉ lineSeparator)).getLast?.or prev = some '\\') :
    (Place.text s.head?).scan (working + 1) (working + 1) s.tail = (Place.text prev).scan working working s := by
  have escaped (w i : Nat) : (Place.text (some '\\')).scan w i (c :: rest) =
      (Place.text (some c)).scan (i + 1) (i + 1) rest := by
    rcases hc with rfl | rfl <;> rfl
  rw [Place.scan_text prev, hs, he, escaped]
  cases s with
  | nil => simp at hs
  | cons d s =>
    by_cases hd : d ∈ lineSeparator
    · rw [takeWhile_cons_of_neg (by simpa using hd)]
      rw [dropWhile_cons_of_neg (by simpa using hd)] at hs
      cases hs
      rfl
    · rw [takeWhile_cons_of_pos (by simpa using hd)] at he ⊢
      rw [dropWhile_cons_of_pos (by simpa using hd)] at hs
      rw [head?_cons, tail_cons, Place.scan_text, hs, ← getLast?_cons_or _ _ prev, he, escaped, length_cons]
      congr 1 <;> omega

theorem scanLoop_eq (working : Nat) (s : List Char) (hf : s.length < fuel) :
    scanLoop fuel prev working s = (Place.text prev).scan working working s := by
  induction fuel generalizing prev working s with
  | zero => omega
  | succ fuel ih =>
    rw [scanLoop]
    have hlen : (s.takeWhile (· ∉ lineSeparator)).length + (s.dropWhile (· ∉ lineSeparator)).length = s.length := by
      rw [← length_append, takeWhile_append_dropWhile]
    cases hs : s.dropWhile (· ∉ lineSeparator) with
    | nil =>
      rw [Place.scan_text, hs]
      rfl
    | cons c rest =>
      rw [hs, length_cons] at hlen
      have hc : c ∈ lineSeparator := by
        have := head?_dropWhile_not (fun d => decide (d ∉ lineSeparator)) s
        rw [hs] at this
        simpa using this
      by_cases hend : c = '\n' ∨ c = '#'
      · rw [Place.scan_text, hs, Place.scan]
        simp only [if_pos hend]
      by_cases hsemi : c = ';'
      · rw [Place.scan_text, hs, Place.scan]
        simp only [if_neg hend, if_pos hsemi]
      have hquote : c = '"' ∨ c = '\'' := by
        simpa only [mem_lineSeparator, hend, hsemi, false_or] using hc
      simp only [if_neg hend, if_neg hsemi]
      split_ifs with he
      · rw [ih _ _ _ (by rw [length_tail]; omega)]
        exact Place.scan_escaped prev working hs hquote he
      · have hback : c ≠ '\\' := by rcases hquote with rfl | rfl <;> decide
        rw [Place.scan_text, hs, Place.scan, if_neg hend, if_neg hsemi, if_neg (fun h => he h.2), Place.next,
          if_pos ⟨hquote, he⟩, Place.scan_quote hback]
        cases nshStrchr c false rest with
        | none => rfl
        | some k => exact ih _ _ _ (by rw [length_drop]; omega)

theorem scanCommand_eq (s : List Char) : scanCommand s = (Place.text none).scan 0 0 s :=
  scanLoop_eq _ _ _ _ (Nat.lt_succ_self _)

/-! ## The offset of a loop -/

def Place.isText : Place → Bool
  | .text _ => true
  | .quote _ _ => false

section

variable {place : Place} {working i w len : Nat} {last : Bool} {s : List Char} (hi : working ≤ i)
  (h : place.scan working i s = .found w len last)

include hi h

theorem Place.scan_le : working ≤ w ∧ w ≤ len ∧ i ≤ len ∧ len + (!last).toNat ≤ i + s.length := by
  fun_induction Place.scan place working i s with
  | case1 => simp_all
  | case2 => simp at h
  | case3 | case4 => simp_all
  | case5 _ _ _ _ _ _ _ _ ih | case6 _ _ _ _ _ _ _ _ ih | case7 _ _ _ _ _ _ _ ih | case8 _ _ _ _ _ _ _ ih =>
    have := ih (by omega) h
    simp only [length_cons]
    omega

theorem Place.scan_working : w = working ↔ place.isText = true ∧ ∀ c ∈ s.take (len - i), c ≠ '"' ∧ c ≠ '\'' := by
  fun_induction Place.scan place working i s with
  | case1 | case3 | case4 =>
    cases h
    simp [Place.isText]
  | case2 => cases h
  | case5 prev working i c s _ _ hc ih =>
    obtain ⟨hw, -, hl, -⟩ := Place.scan_le .refl h
    refine ⟨fun he => by omega, fun hq => ?_⟩
    have := hq.2 c (by rw [show len - i = (len - i - 1) + 1 by omega]; simp)
    exact absurd hc.1 (not_or.mpr this)
  | case6 prev working i c s _ _ hc ih =>
    obtain ⟨-, -, hl, -⟩ := Place.scan_le (Nat.le_succ_of_le hi) h
    rw [ih (by omega) h, show len - i = (len - (i + 1)) + 1 by omega, take_succ_cons]
    by_cases hq : c = '"' ∨ c = '\''
    · rw [Place.next, if_pos ⟨hq, fun he => hc ⟨hq, he⟩⟩]
      refine ⟨fun h => absurd h.1 (by simp [Place.isText]), fun h => ?_⟩
      exact absurd hq (not_or.mpr (h.2 c (by simp)))
    · rw [Place.next, if_neg (fun h => hq h.1)]
      simp [Place.isText, not_or.mp hq]
  | case7 q quoted working i c s _ ih =>
    have := Place.scan_le .refl h
    exact ⟨fun he => by omega, fun h => absurd h.1 (by simp [Place.isText])⟩
  | case8 q quoted working i c s hc ih =>
    rw [ih (by omega) h]
    have hn : ((Place.quote q quoted).next c).isText = false := by
      rw [Place.next]
      split
      · rfl
      · rename_i hb
        rw [if_neg (fun h => hc ⟨h.1, h.2, fun he => hb ⟨he, h.2⟩⟩)]
        rfl
    exact ⟨fun h => absurd h.1 (by simp [hn]), fun h => absurd h.1 (by simp [Place.isText])⟩

end

@[simp] theorem Place.isText_text : (Place.text prev).isText = true := rfl

variable {s : List Char}

theorem scanCommand_found {working len : Nat} {last : Bool}
    (h : scanCommand s = .found working len last) :
    working ≤ len ∧ len + (!last).toNat ≤ s.length ∧ (working = 0 ↔ ∀ q ∈ s.take len, q ≠ '"' ∧ q ≠ '\'') := by
  rw [scanCommand_eq] at h
  have hle := Place.scan_le .refl h
  have hw := Place.scan_working .refl h
  simp only [Place.isText_text, true_and, Nat.sub_zero] at hw
  exact ⟨hle.2.1, by omega, hw⟩

structure Command.On (c : Command) (start : Nat) (s : List Char) : Prop where
  le : start ≤ c.start
  text : c.text <+: s.drop (c.start - start)
  working : c.working ≤ c.len
  len : c.start + c.len ≤ start + s.length
  quotes : c.working = 0 ↔ ∀ q ∈ c.body, q ≠ '"' ∧ q ≠ '\''

theorem commandsFrom_on {fuel start : Nat} {s : List Char} {c : Command} (h : c ∈ commandsFrom fuel start s) :
    c.On start s := by
  induction fuel generalizing start s with
  | zero => simp [commandsFrom] at h
  | succ fuel ih =>
    rw [commandsFrom] at h
    cases hs : scanCommand s with
    | unmatched q => simp [hs] at h
    | found working len last =>
      obtain ⟨hw, hl, hq⟩ := scanCommand_found hs
      cases last with
      | true =>
        obtain rfl : c = ⟨start, working, len, s, true⟩ := by simpa [hs] using h
        exact ⟨.refl, by simp, hw, Nat.add_le_add_left hl start, hq⟩
      | false =>
        rcases (by simpa [hs] using h : c = ⟨start, working, len, s.take len, false⟩ ∨ _) with rfl | h
        · refine ⟨.refl, ?_, hw, ?_, ?_⟩
          · simpa using take_prefix len s
          · exact Nat.add_le_add_left (Nat.le_of_succ_le hl) start
          · rwa [Command.body, take_take, Nat.min_self]
        · have on := ih h
          have hle := on.le
          have hlen := on.len
          refine ⟨by omega, ?_, on.working, ?_, on.quotes⟩
          · have := on.text
            rwa [drop_drop, show len + 1 + (c.start - (start + len + 1)) = c.start - start by omega] at this
          · rw [Bool.not_false, Bool.toNat_true] at hl
            rw [length_drop] at hlen
            omega

theorem nshLoop_topoffs {nestdepth : Nat} {np : Parser} {cmd : String} {rest : List String}
    (hcmd : cmd = "while" ∨ cmd = "until") (hok : (nshLoop nestdepth np (cmd :: rest)).2 = .ok rest) :
    (nshLoop nestdepth np (cmd :: rest)).1.lp.topoffs = np.foffs := by
  rw [nshLoop, if_pos hcmd] at hok ⊢
  split at hok
  · cases hok
  · rename_i hrest
    split at hok
    · cases hok
    · rename_i hcontext
      split at hok
      · cases hok
      · rename_i hdepth
        rw [if_neg hrest, if_neg hcontext, if_neg hdepth]
        simp [Parser.lp, Parser.setLp]

/-- The offset of a command is that of the loop that it enters, and a script that goes back there reads the command
again, exactly if nothing in the command is quoted. -/
theorem topoffs_iff {line : List Char} {base nestdepth : Nat} {np : Parser} {expand : Arg → String} {c : Command}
    (file : List Char) (cmd : String) (rest : List String) (hfile : line <+: file.drop base)
    (hline : line.length < 2 ^ 16) (hc : c ∈ commands line) (hcmd : cmd = "while" ∨ cmd = "until")
    (hw : (wordsOf c.text).map expand = cmd :: rest)
    (hok : (nshLoop nestdepth { np with foffs := base + c.loffs } (cmd :: rest)).2 = .ok rest) :
    ((nshLoop nestdepth { np with foffs := base + c.loffs } ((wordsOf c.text).map expand)).1.lp.topoffs =
          base + c.start ∧
        c.text <+: file.drop
          (nshLoop nestdepth { np with foffs := base + c.loffs } ((wordsOf c.text).map expand)).1.lp.topoffs) ↔
      ∀ q ∈ c.body, q ≠ '"' ∧ q ≠ '\'' := by
  have on : c.On 0 line := commandsFrom_on hc
  have hlen := on.len
  have hworking := on.working
  rw [hw, nshLoop_topoffs hcmd hok, ← on.quotes]
  show (base + c.loffs = base + c.start ∧ c.text <+: file.drop (base + c.loffs)) ↔ _
  rw [Command.loffs, Nat.mod_eq_of_lt (by omega)]
  refine ⟨fun h => by omega, fun h => ⟨by omega, ?_⟩⟩
  rw [h, add_zero, ← drop_drop]
  have hprefix : line.drop c.start <+: (file.drop base).drop c.start := by
    obtain ⟨t, ht⟩ := hfile
    rw [← ht, drop_append_of_le_length (by omega)]
    exact prefix_append _ _
  exact List.IsPrefix.trans (by simpa using on.text) hprefix

def Arg.string (a : Arg) : String := String.ofList a.text

theorem topoffs_true :
    ∃ c ∈ commands "ls; while true; do".toList, c.start = 3 ∧ (wordsOf c.text).map Arg.string = ["while", "true"] ∧
      (nshLoop 4 { Parser.init with foffs := 2 + c.loffs } ((wordsOf c.text).map Arg.string)).1.lp.topoffs = 5 := by
  refine ⟨⟨3, 0, 11, " while true".toList, false⟩, by decide, rfl, by decide, ?_⟩
  exact ((topoffs_iff ('#' :: '\n' :: "ls; while true; do".toList) "while" ["true"] (prefix_refl _) (by decide)
    (by decide) (.inl rfl) (by decide) (by decide)).mpr (by simp [Command.body])).1

/-- The offset of `while test "a" = b` is that of the text behind the last quotation mark. -/
theorem not_topoffs_quoted :
    ∃ c ∈ commands "while test \"a\" = b; do".toList, c.start = 0 ∧
      (wordsOf c.text).map Arg.string = ["while", "test", "a", "=", "b"] ∧
      (nshLoop 4 { Parser.init with foffs := c.loffs } ((wordsOf c.text).map Arg.string)).2 =
        .ok ["test", "a", "=", "b"] ∧
      (nshLoop 4 { Parser.init with foffs := c.loffs } ((wordsOf c.text).map Arg.string)).1.lp.topoffs = 14 := by
  refine ⟨⟨0, 14, 18, "while test \"a\" = b".toList, false⟩, by decide, rfl, by decide, by decide, by decide⟩

/-! ## Comments -/

def Place.commentAt : Place → List Char → Option Nat
  | _, [] => none
  | place, c :: s => if c = '#' ∧ place.isText then some 0 else ((place.next c).commentAt s).map (· + 1)

def commentAt (line : List Char) : Option Nat := (Place.text none).commentAt line

def truncate (line : List Char) : List Char :=
  match commentAt line with
  | none => line
  | some i => line.take i

theorem Place.commentAt_split {i : Nat} (h : place.commentAt s = some i) : s = s.take i ++ '#' :: s.drop (i + 1) := by
  induction s generalizing place i with
  | nil => simp [Place.commentAt] at h
  | cons c s ih =>
    rw [Place.commentAt] at h
    split_ifs at h with hc
    · cases h
      simp [hc.1]
    · obtain ⟨j, hj, rfl⟩ := map_eq_some_iff.mp h
      rw [take_succ_cons, drop_succ_cons, cons_append, ← ih hj]

theorem Place.commentAt_text {prev prev' : Option Char} (h : prev ≠ some '\\') (h' : prev' ≠ some '\\')
    (s : List Char) : (Place.text prev).commentAt s = (Place.text prev').commentAt s := by
  cases s with
  | nil => rfl
  | cons c s => simp only [Place.commentAt, Place.next, Place.isText_text, h, h', ne_eq, not_false_eq_true, and_true]

theorem Place.commentAt_cons {n : Nat}
    (h : place.commentAt (c :: s) = some (n + 1)) : (place.next c).commentAt s = some n := by
  rw [Place.commentAt] at h
  split at h
  · simp at h
  · simpa using h

section

variable {place : Place} {p r : List Char} (working i : Nat) (h : place.commentAt (p ++ '#' :: r) = some p.length)

include h

theorem Place.scan_comment : place.scan working i (p ++ '#' :: r) = place.scan working i p := by
  induction p generalizing place working i with
  | nil =>
    cases place with
    | text prev => rfl
    | quote q quoted => simp [Place.commentAt, Place.isText] at h
  | cons c p ih =>
    have hn := Place.commentAt_cons h
    cases place <;> simp only [cons_append, Place.scan, ih _ _ hn]

/-- In front of a comment every string is closed, and a semicolon leaves a text with the same comment. -/
theorem Place.scan_in_front :
    ∃ w len last, place.scan working i p = .found w len last ∧
      (last = false → ∃ k < p.length, len = i + k ∧
        (Place.text none).commentAt (p.drop (k + 1) ++ '#' :: r) = some (p.drop (k + 1)).length) := by
  induction p generalizing place working i with
  | nil =>
    cases place with
    | text prev => exact ⟨working, i, true, rfl, by simp⟩
    | quote q quoted => simp [Place.commentAt, Place.isText] at h
  | cons c p ih =>
    have hn := Place.commentAt_cons h
    have later (working : Nat) : ∃ w len last, (place.next c).scan working (i + 1) p = .found w len last ∧
        (last = false → ∃ k < (c :: p).length, len = i + k ∧
          (Place.text none).commentAt ((c :: p).drop (k + 1) ++ '#' :: r) = some ((c :: p).drop (k + 1)).length) := by
      obtain ⟨w, len, last, hs, hl⟩ := ih working (i + 1) hn
      refine ⟨w, len, last, hs, fun hlast => ?_⟩
      obtain ⟨k, hk, rfl, hc⟩ := hl hlast
      exact ⟨k + 1, by simpa using hk, by omega, hc⟩
    cases place with
    | quote q quoted =>
      rw [Place.scan]
      split <;> exact later _
    | text prev =>
      rw [Place.scan]
      split
      · exact ⟨working, i, true, rfl, by simp⟩
      · split
        · rename_i hsemi
          subst hsemi
          refine ⟨working, i, false, rfl, fun _ => ⟨0, by simp, rfl, ?_⟩⟩
          exact (Place.commentAt_text (by decide) (by decide) _).trans hn
        · split <;> exact later _

end

theorem commandsFrom_comment (fuel fuel' start : Nat) (p r : List Char) (hf : p.length < fuel) (hf' : p.length < fuel')
    (h : (Place.text none).commentAt (p ++ '#' :: r) = some p.length) :
    ∃ cs c, commandsFrom fuel start (p ++ '#' :: r) = cs ++ [{ c with text := c.text ++ '#' :: r }] ∧
      commandsFrom fuel' start p = cs ++ [c] ∧ ∀ d ∈ cs, d.last = false := by
  induction fuel generalizing fuel' start p with
  | zero => omega
  | succ fuel ih =>
    obtain ⟨fuel', rfl⟩ : ∃ n, fuel' = n + 1 := ⟨fuel' - 1, by omega⟩
    obtain ⟨w, len, last, hs, hl⟩ := Place.scan_in_front 0 0 h
    have hp : scanCommand p = .found w len last := by rw [scanCommand_eq, hs]
    have hpr : scanCommand (p ++ '#' :: r) = .found w len last := by rw [scanCommand_eq, Place.scan_comment 0 0 h, hs]
    simp only [commandsFrom, hp, hpr]
    cases last with
    | true => exact ⟨[], ⟨start, w, len, p, true⟩, rfl, rfl, by simp⟩
    | false =>
      obtain ⟨k, hk, hlen, hc⟩ := hl rfl
      rw [zero_add] at hlen
      subst hlen
      have hd : (p.drop (len + 1)).length < fuel ∧ (p.drop (len + 1)).length < fuel' := by
        rw [length_drop]
        omega
      obtain ⟨cs, c, h1, h2, h3⟩ := ih fuel' (start + len + 1) (p.drop (len + 1)) hd.1 hd.2 hc
      refine ⟨⟨start, w, len, p.take len, false⟩ :: cs, c, ?_, ?_, by simpa using h3⟩
      · show ⟨start, w, len, (p ++ '#' :: r).take len, false⟩ ::
          commandsFrom fuel (start + len + 1) ((p ++ '#' :: r).drop (len + 1)) = _
        rw [drop_append_of_le_length hk, take_append_of_le_length (Nat.le_of_lt hk), h1]
        rfl
      · show ⟨start, w, len, p.take len, false⟩ :: commandsFrom fuel' (start + len + 1) (p.drop (len + 1)) = _
        rw [h2]
        rfl

def record (st : List (List Arg)) (_ : Nat) (ws : List Arg) : List (List Arg) × Bool := (st ++ [ws], true)

theorem runCommands_record (st : List (List Arg)) (cs : List Command) (c : Command) (h : ∀ d ∈ cs, d.last = false) :
    (runCommands (fun _ => false) record st (cs ++ [c])).1 = st ++ (cs ++ [c]).map (fun d => wordsOf d.text) := by
  induction cs generalizing st with
  | nil =>
    simp only [nil_append, runCommands]
    split <;> rfl
  | cons d cs ih =>
    have hd : d.last = false := h d (by simp)
    simp only [cons_append, runCommands, hd, record, Bool.false_eq_true, if_false, Bool.true_eq_false]
    rw [ih _ fun e he => h e (by simp [he])]
    simp

/-- The comment begins where the last command in front of it would have its next word, or in a string that it leaves
open. -/
def CommentEnds (line : List Char) : Prop :=
  ∀ i ∈ commentAt line, ∀ c ∈ (commands (line.take i)).getLast?,
    (Mode.blank.after c.text).Ends ('#' :: line.drop (i + 1))

/-- `nsh_parse` does what it does with the line without its comment, exactly if the comment begins where a word
would. -/
theorem comment_iff (line : List Char) :
    (∀ (σ : Type) (jump : σ → Bool) (exec : σ → Nat → List Arg → σ × Bool) (st : σ),
      nshParse jump exec st line = nshParse jump exec st (truncate line)) ↔ CommentEnds line := by
  cases hi : commentAt line with
  | none =>
    have ht : truncate line = line := by simp only [truncate, hi]
    exact iff_of_true (fun σ jump exec st => by rw [ht]) (fun i h => by simp [hi] at h)
  | some i =>
    have ht : truncate line = line.take i := by simp only [truncate, hi]
    have hsplit : line = line.take i ++ '#' :: line.drop (i + 1) := Place.commentAt_split hi
    have hlen : (line.take i).length = i := by
      have := congrArg List.length hsplit
      simp only [length_append, length_take, length_cons, length_drop] at this ⊢
      omega
    obtain ⟨cs, c, hline, hfront, hlast⟩ := commandsFrom_comment (line.length + 1) ((line.take i).length + 1) 0
      (line.take i) (line.drop (i + 1)) (by simp only [length_take]; omega) (Nat.lt_succ_self _)
      (by rw [← hsplit, hlen]; exact hi)
    rw [← hsplit] at hline
    have hcommands : commands (line.take i) = cs ++ [c] := hfront
    have hends : CommentEnds line ↔ wordsOf (c.text ++ '#' :: line.drop (i + 1)) = wordsOf c.text := by
      rw [wordsOf_eq, wordsOf_eq, Mode.words_append, show Mode.blank.words c.text = Mode.blank.ended c.text ++
        (Mode.blank.after c.text).last from rfl, append_right_inj, Mode.words_hash_iff]
      simp only [CommentEnds, hi, hcommands, getLast?_append, getLast?_singleton, some_or,
        mem_def, some.injEq, forall_eq']
    rw [hends]
    constructor
    · intro h
      have hr := congrArg Prod.fst (h _ (fun _ => false) record [])
      rw [ht, nshParse_eq, nshParse_eq, hcommands, commands, hline, runCommands_record _ _ _ hlast,
        runCommands_record _ _ _ hlast] at hr
      simpa using hr
    · intro h σ jump exec st
      rw [ht, nshParse_eq, nshParse_eq, hcommands, commands, hline]
      refine runCommands_congr jump exec ?_ h ?_ st cs <;> rfl

/-- In `echo a#b; ls` the comment begins in a word, and all of the line is one command. -/
theorem not_comment_word :
    (nshParse (fun _ => false) record [] "echo a#b; ls".toList).1.map (·.map Arg.string) = [["echo", "a#b;", "ls"]] ∧
      (nshParse (fun _ => false) record [] (truncate "echo a#b; ls".toList)).1.map (·.map Arg.string) =
        [["echo", "a"]] := by
  decide

end NuttxApps.Nsh
