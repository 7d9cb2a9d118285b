import NuttxApps.Framework.Consume
import NuttxApps.Pfw.Criterion

/-!
# Reading the files of the parameter framework

A line with a wrong indent is skipped, as an empty one is (`followingLines`). The parser stores the state of a leaf by
its predicate: an interval, or a word (`parsed_parseRule`).
-/

namespace NuttxApps.Pfw

open CString Libc Consume

/-! The words that name the kinds of lines. -/

def numericalWord : Text :=
  chars ['N', 'u', 'm', 'e', 'r', 'i', 'c', 'a', 'l', 'C', 'r', 'i', 't', 'e', 'r', 'i', 'o', 'n']

def exclusiveWord : Text :=
  chars ['E', 'x', 'c', 'l', 'u', 's', 'i', 'v', 'e', 'C', 'r', 'i', 't', 'e', 'r', 'i', 'o', 'n']

def inclusiveWord : Text :=
  chars ['I', 'n', 'c', 'l', 'u', 's', 'i', 'v', 'e', 'C', 'r', 'i', 't', 'e', 'r', 'i', 'o', 'n']

def domainWord : Text := chars ['d', 'o', 'm', 'a', 'i', 'n', ':']

def confWord : Text := chars ['c', 'o', 'n', 'f', ':']

structure Line where
  depth : Nat
  text : Text
deriving DecidableEq, Repr

def isBlank (c : UInt8) : Bool := c == 32 || c == 9

/-- `pfw_context_skip_indent`: the text behind the indent, what lines are indented with and the depth, or `none` for a
wrong indent. -/
def skipIndent (indent : Option UInt8) (line : Text) : Option (Text × Option UInt8 × Nat) :=
  let blanks := line.takeWhile isBlank
  let text := line.dropWhile isBlank
  let space := blanks.count 32
  let tab := blanks.count 9
  if 0 < space then
    if space % 4 ≠ 0 ∨ 0 < tab ∨ indent = some 9 then none else some (text, some 32, space / 4)
  else if 0 < tab then
    if indent = some 32 then none else some (text, some 9, tab)
  else some (text, indent, 0)

def followingLines (indent : Option UInt8) : List Text → List Line
  | [] => []
  | line :: rest =>
    match skipIndent indent line with
    | none => followingLines indent rest
    | some (text, indent, depth) =>
      if text = [] then followingLines indent rest else ⟨depth, text⟩ :: followingLines indent rest

/-- `pfw_context_create`; a file without a line makes it read through a null pointer. -/
def contextCreate (file : Text) : Except Stop (List Line) :=
  match tokens (· == 10) (cstr file) with
  | [] => .error .undefined
  | line :: rest =>
    match skipIndent none line with
    | none => .error .invalid
    | some (text, indent, depth) => .ok (⟨depth, text⟩ :: followingLines indent rest)

/-- `pfw_context_take_word`: the next word of a line, and what follows it. -/
def takeWord (text : Text) : Option (Text × Text) :=
  let text := text.dropWhile isBlank
  if text = [] then none
  else some (text.takeWhile (!isBlank ·), (text.dropWhile (!isBlank ·)).tail)

inductive Predicate
  | is
  | isNot
  | includes
  | excludes
  | isIn
  | notIn
deriving DecidableEq, Repr

/-- The union `state` of a rule, with the member that was stored last. -/
inductive Field
  | word (text : Text)
  | v (state : BitVec 32)
  | itv (interval : Interval)
deriving DecidableEq, Repr

/-- A `pfw_rule_t` without branches; the criterion is found by its name. -/
structure Leaf where
  criterion : Text
  predicate : Predicate
  state : Field
deriving DecidableEq, Repr

inductive Rule
  | leaf (leaf : Leaf)
  | all (branches : List Rule)
  | any (branches : List Rule)

/-- `pfw_ammend_t`; a criterion is given by its name. -/
inductive Ammend
  | raw (text : Text)
  | criterion (name : Text)
deriving DecidableEq, Repr

structure Act where
  plugin : Text
  param : List Ammend
deriving DecidableEq, Repr

/-- `pfw_config_t`, without what it was last applied with; a conf may have no rule. -/
structure Config where
  name : List Ammend
  rules : Option Rule
  acts : List Act

structure Domain where
  name : Text
  configs : List Config

def behindInt (s : Text) : Text :=
  let s := s.dropWhile isspace
  (if s.head? = some 45 ∨ s.head? = some 43 then s.tail else s).dropWhile isdigit

variable (t : Target)

def parseInterval (word : Text) : Interval :=
  let number : Interval := ⟨.ofInt 32 (strtol t word), .ofInt 32 (strtol t word)⟩
  match word with
  | 91 :: s =>
    match scanInt s, s with
    | some left, s =>
      match behindInt s with
      | 44 :: s => ⟨left.toBitVec, ((scanInt s).map Int32.toBitVec).getD (BitVec.intMax 32)⟩
      | _ => ⟨left.toBitVec, BitVec.intMax 32⟩
    | none, 44 :: s =>
      match scanInt s with
      | some right => ⟨BitVec.intMin 32, right.toBitVec⟩
      | none => number
    | none, _ => number
  | _ => number

def predicateOf (word : Text) : Option Predicate :=
  if word = chars ['I', 's'] then some .is
  else if word = chars ['I', 's', 'N', 'o', 't'] then some .isNot
  else if word = chars ['E', 'x', 'c', 'l', 'u', 'd', 'e', 's'] then some .excludes
  else if word = chars ['I', 'n', 'c', 'l', 'u', 'd', 'e', 's'] then some .includes
  else if word = chars ['I', 'n'] then some .isIn
  else if word = chars ['N', 'o', 't', 'I', 'n'] then some .notIn
  else none

/-- The leaves of `pfw_parse_rule`, behind the name of the criterion. -/
def parseLeaf (criterion text : Text) : Option Leaf :=
  match takeWord text with
  | none => none
  | some (word, text) =>
    match predicateOf word, takeWord text with
    | some predicate, some (word, _) =>
      some ⟨criterion, predicate,
        if predicate = .isIn ∨ predicate = .notIn then .itv (parseInterval t word) else .word word⟩
    | _, _ => none

def parseRule (t : Target) : Nat → Nat → Parser Line Rule
  | 0, _, _ => .error .fuel
  | fuel + 1, depth, lines =>
    match lines with
    | [] => .error .eof
    | line :: rest =>
      if line.depth ≠ depth then .error .eof
      else
        match takeWord line.text with
        | none => .error .invalid
        | some (word, text) =>
          if word = chars ['A', 'L', 'L'] then
            (many (parseRule t fuel (depth + 1)) (rest.length + 1) 128 rest).map fun r => (.all r.1, r.2)
          else if word = chars ['A', 'N', 'Y'] then
            (many (parseRule t fuel (depth + 1)) (rest.length + 1) 128 rest).map fun r => (.any r.1, r.2)
          else
            match parseLeaf t word text with
            | none => .error .invalid
            | some leaf => .ok (.leaf leaf, rest)

def parseAmmends (text : Text) : Except Stop (List Ammend) :=
  let words := tokens (· == 37) text
  if 128 < words.length then .error .invalid else .ok (words.map .raw)

def parseAct : Parser Line Act
  | [] => .error .eof
  | line :: rest =>
    if line.depth ≠ 2 then .error .eof
    else
      match takeWord line.text with
      | none => .error .invalid
      | some (plugin, text) =>
        match takeWord text with
        | none => .error .invalid
        | some (word, text) =>
          if word ≠ chars ['='] then .error .invalid
          else (parseAmmends text).map fun param => (⟨plugin, param⟩, rest)

variable (lines : List Line)

def parseRules : Except Stop (Option Rule × List Line) :=
  match parseRule t (lines.length + 1) 2 lines with
  | .ok (rule, rest) => .ok (some rule, rest)
  | .error .eof => .ok (none, lines)
  | .error e => .error e

def parseConfig : Parser Line Config
  | [] => .error .eof
  | line :: rest =>
    if line.depth ≠ 1 then .error .eof
    else
      match takeWord line.text with
      | none => .error .invalid
      | some (word, text) =>
        if word ≠ confWord then .error .invalid
        else do
          let name ← parseAmmends text
          let (rules, rest) ← parseRules t rest
          let (acts, rest) ← many parseAct (rest.length + 1) 128 rest
          return (⟨name, rules, acts⟩, rest)

def parseDomain : Parser Line Domain
  | [] => .error .eof
  | line :: rest =>
    match takeWord line.text with
    | none => .error .invalid
    | some (word, text) =>
      if word ≠ domainWord then .error .invalid
      else
        match takeWord text with
        | none => .error .invalid
        | some (name, _) =>
          (many (parseConfig t) (rest.length + 1) 128 rest).map fun r => (⟨name, r.1⟩, r.2)

def parseSettings : Except Stop (List Domain) :=
  (many (parseDomain t) (lines.length + 1) 128 lines).map (·.1)

/-- A criterion as it is read: its initial state is a word, or missing. -/
structure CriterionDef where
  names : List Text
  ranges : Ranges
  init : Option Text

/-- A literal too many for a mask frees the criterion that is returned. -/
def parseRanges (type : Text) (words : List Text) : Except Stop Ranges :=
  if type = numericalWord then
    if 128 < words.length then .error .invalid else .ok (.numerical (words.map (parseInterval t)))
  else if type = exclusiveWord then
    if h : words.length ≤ 128 then .ok (.exclusive words h) else .error .invalid
  else if type = inclusiveWord then
    if h : words.length ≤ 32 then .ok (.inclusive words h) else .error .undefined
  else .error .invalid

def parseInit (ranges : List Text) : List Text → Except Stop (Option Text)
  | [] => if ranges = [] then .error .invalid else .ok none
  | [_] => .error .invalid
  | _ :: init :: _ => .ok (some init)

def parseCriterion : Parser Line CriterionDef
  | [] => .error .eof
  | line :: rest =>
    match tokens isBlank line.text with
    | [] => .error .invalid
    | type :: words =>
      let names := words.takeWhile (· ≠ chars [':'])
      let behind := (words.dropWhile (· ≠ chars [':'])).tail
      let ranges := behind.takeWhile (· ≠ chars ['='])
      if chars [':'] ∉ words ∨ 128 < names.length then .error .invalid
      else
        match parseRanges t type ranges, parseInit ranges (behind.dropWhile (· ≠ chars ['='])) with
        | .error e, _ => .error e
        | .ok _, .error e => .error e
        | .ok r, .ok init => .ok (⟨names, r, init⟩, rest)

def parseCriteria : Except Stop (List CriterionDef) :=
  (many (parseCriterion t) (lines.length + 1) 128 lines).map (·.1)

mutual

def Rule.leaves : Rule → List Leaf
  | .leaf leaf => [leaf]
  | .all branches => leavesAll branches
  | .any branches => leavesAll branches

def leavesAll : List Rule → List Leaf
  | [] => []
  | rule :: rules => rule.leaves ++ leavesAll rules

end

def leavesOf (domains : List Domain) : List Leaf :=
  domains.flatMap fun d => d.configs.flatMap fun c => leavesAll c.rules.toList

def Leaf.Parsed (l : Leaf) : Prop :=
  match l.predicate with
  | .isIn | .notIn => ∃ itv, l.state = .itv itv
  | _ => ∃ word, l.state = .word word

section Stores

variable {t : Target}

theorem mem_leavesAll {l : Leaf} {rules : List Rule} : l ∈ leavesAll rules ↔ ∃ rule ∈ rules, l ∈ rule.leaves := by
  induction rules with
  | nil => simp [leavesAll]
  | cons rule rules ih => simp [leavesAll, ih]

theorem parsed_parseLeaf {criterion text : Text} {l : Leaf} (h : parseLeaf t criterion text = some l) : l.Parsed := by
  unfold parseLeaf at h
  split at h
  · cases h
  split at h
  case h_1 predicate _ _ _ _ =>
    obtain rfl := Option.some.inj h
    cases predicate <;> exact ⟨_, rfl⟩
  case h_2 => cases h

variable {lines rest : List Line}

theorem parsed_parseRule {fuel depth : Nat} {rule : Rule}
    (h : parseRule t fuel depth lines = .ok (rule, rest)) : ∀ l ∈ rule.leaves, l.Parsed := by
  induction fuel generalizing depth lines rest rule with
  | zero => simp [parseRule] at h
  | succ fuel ih =>
    -- the branches are rules that were read with one fuel less
    have hmany : ∀ {items rest rules},
        many (parseRule t fuel (depth + 1)) (items.length + 1) 128 items = .ok (rules, rest) →
          ∀ l ∈ leavesAll rules, l.Parsed := by
      intro items rest rules h l hl
      obtain ⟨rule, hrule, hl⟩ := mem_leavesAll.mp hl
      obtain ⟨items', rest', hparse⟩ := exists_of_mem_many h hrule
      exact ih hparse l hl
    unfold parseRule at h
    split at h
    · cases h
    split_ifs at h
    split at h
    · cases h
    split_ifs at h
    iterate 2
      · obtain ⟨⟨rules, rest'⟩, hrules, heq⟩ := map_eq_ok_iff.mp h
        obtain ⟨rfl, -⟩ := Prod.mk.inj heq
        exact hmany hrules
    · split at h
      · cases h
      · rename_i leaf hleaf
        obtain ⟨rfl, -⟩ := Prod.mk.inj (Except.ok.inj h)
        intro l hl
        obtain rfl := List.mem_singleton.mp hl
        exact parsed_parseLeaf hleaf

theorem parsed_parseRules {rules : Option Rule}
    (h : parseRules t lines = .ok (rules, rest)) : ∀ l ∈ leavesAll rules.toList, l.Parsed := by
  unfold parseRules at h
  split at h
  case h_1 hrule =>
    obtain ⟨rfl, -⟩ := Prod.mk.inj (Except.ok.inj h)
    simpa [leavesAll] using parsed_parseRule hrule
  case h_2 =>
    obtain ⟨rfl, -⟩ := Prod.mk.inj (Except.ok.inj h)
    simp [leavesAll]
  case h_3 => cases h

theorem parsed_parseConfig {c : Config} (h : parseConfig t lines = .ok (c, rest)) :
    ∀ l ∈ leavesAll c.rules.toList, l.Parsed := by
  unfold parseConfig at h
  split at h
  · cases h
  split_ifs at h
  split at h
  · cases h
  split_ifs at h
  obtain ⟨name, -, h⟩ := bind_eq_ok_iff.mp h
  obtain ⟨⟨rules, left⟩, hrules, h⟩ := bind_eq_ok_iff.mp h
  obtain ⟨⟨acts, left'⟩, -, h⟩ := bind_eq_ok_iff.mp h
  obtain ⟨rfl, -⟩ := Prod.mk.inj (Except.ok.inj h)
  exact parsed_parseRules hrules

theorem parsed_parseDomain {d : Domain} (h : parseDomain t lines = .ok (d, rest)) :
    ∀ c ∈ d.configs, ∀ l ∈ leavesAll c.rules.toList, l.Parsed := by
  unfold parseDomain at h
  split at h
  · cases h
  split at h
  · cases h
  split_ifs at h
  split at h
  · cases h
  obtain ⟨⟨configs, left⟩, hconfigs, heq⟩ := map_eq_ok_iff.mp h
  obtain ⟨rfl, -⟩ := Prod.mk.inj heq
  intro c hc
  obtain ⟨items, rest', hparse⟩ := exists_of_mem_many hconfigs hc
  exact parsed_parseConfig hparse

theorem parsed_parseSettings {lines : List Line} {domains : List Domain}
    (h : parseSettings t lines = .ok domains) : ∀ l ∈ leavesOf domains, l.Parsed := by
  obtain ⟨⟨domains', left⟩, hdomains, heq⟩ := map_eq_ok_iff.mp h
  obtain rfl := heq
  intro l hl
  obtain ⟨d, hd, hl⟩ := List.mem_flatMap.mp hl
  obtain ⟨c, hc, hl⟩ := List.mem_flatMap.mp hl
  obtain ⟨items, rest', hparse⟩ := exists_of_mem_many hdomains hd
  exact parsed_parseDomain hparse c hc l hl

end Stores

end NuttxApps.Pfw
