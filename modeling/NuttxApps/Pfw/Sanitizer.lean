import NuttxApps.Pfw.Parser
import Mathlib.Data.List.Forall2

/-!
# The sanitizer of the parameter framework

The sanitizer stores the state of each leaf again, by the type of its criterion, before it looks at the predicate. Its
switch over the types has no `break`, so an interval can be read as a text. Other rules that are accepted are well typed
(`rules_typed_iff`). A line with a wrong indent is an error only if it is the first one (`rejected_iff`).
-/

namespace NuttxApps.Pfw

open CString Libc Consume List

/-- What `pfw_create` finds around it: the width of `long`, the text at the address of an interval, the plugins, and the
state that `on_load` stores. -/
structure Env where
  target : Target
  text : Interval → Text
  /-- The text at an interval that starts with 0 is empty. -/
  text_of_zero : ∀ itv, itv.left = 0 → text itv = []
  plugins : List Text
  load : Option Text → BitVec 32 → BitVec 32

structure System where
  criteria : List Criterion
  domains : List Domain

def Ranges.literals : Ranges → List Text
  | .exclusive literals _ => literals
  | .inclusive literals _ => literals
  | .numerical _ => []

variable (ranges : Ranges) (env : Env)

/-- `pfw_sanitize_criterion`; without a word, the initial state is 0. -/
def sanitizeCriterion (d : CriterionDef) : Except Stop Criterion :=
  match d.init.elim (some 0) (atoi env.target d.ranges) with
  | none => .error .invalid
  | some init =>
    if d.ranges.literals.Nodup ∧ d.names.Nodup then
      .ok ⟨d.names, d.ranges, env.load d.names.head? init, init⟩
    else .error .invalid

/-- `pfw_sanitize_criteria`; the names of all criteria go to one vector. -/
def sanitizeCriteria (defs : List CriterionDef) : Except Stop (List Criterion) := do
  let criteria ← defs.mapM (sanitizeCriterion env)
  let names := criteria.flatMap Criterion.names
  if names.length ≤ 128 ∧ names.Nodup then return criteria else .error .invalid

def Field.text (env : Env) : Field → Text
  | .word text => text
  | .itv i => env.text i
  | .v _ => []

variable (indent : Option UInt8) (p : Predicate)

/-- The switch over the types of criteria; each case falls through to the next one. -/
def accepts : Bool :=
  let numerical := p = .isIn || p = .notIn
  let inclusive := p = .includes || p = .excludes || numerical
  let exclusive := p = .is || p = .isNot || inclusive
  match ranges with
  | .exclusive .. => exclusive
  | .inclusive .. => inclusive
  | .numerical _ => numerical

variable (criteria : List Criterion)

def sanitizeLeaf (l : Leaf) : Except Stop Leaf :=
  match find criteria l.criterion with
  | none => .error .invalid
  | some c =>
    let state :=
      match c.ranges with
      | .numerical _ => some l.state
      | ranges => (atoi env.target ranges (l.state.text env)).map .v
    match state with
    | none => .error .invalid
    | some state => if accepts c.ranges l.predicate then .ok { l with state } else .error .invalid

mutual

def sanitizeRule (env : Env) (criteria : List Criterion) : Rule → Except Stop Rule
  | .leaf l => (sanitizeLeaf env criteria l).map .leaf
  | .all branches => (sanitizeRules env criteria branches).map .all
  | .any branches => (sanitizeRules env criteria branches).map .any

def sanitizeRules (env : Env) (criteria : List Criterion) : List Rule → Except Stop (List Rule)
  | [] => .ok []
  | rule :: rules => do
    let rule ← sanitizeRule env criteria rule
    let rules ← sanitizeRules env criteria rules
    return rule :: rules

end

/-- `pfw_sanitize_ammends`: a word that is the name of a criterion stands for it. -/
def sanitizeAmmend : Ammend → Ammend
  | .raw text => if (find criteria text).isSome then .criterion text else .raw text
  | .criterion name => .criterion name

def sanitizeAct (a : Act) : Except Stop Act :=
  if a.plugin ∈ env.plugins then .ok { a with param := a.param.map (sanitizeAmmend criteria) } else .error .invalid

/-- `pfw_sanitize_config`; a conf without a rule makes it read through a null pointer. -/
def sanitizeConfig (c : Config) : Except Stop Config :=
  match c.rules with
  | none => .error .undefined
  | some rule => do
    let rule ← sanitizeRule env criteria rule
    let acts ← c.acts.mapM (sanitizeAct env criteria)
    return ⟨c.name.map (sanitizeAmmend criteria), some rule, acts⟩

def sanitizeDomain (d : Domain) : Except Stop Domain :=
  (d.configs.mapM (sanitizeConfig env criteria)).map fun configs => { d with configs }

def sanitizeSettings (domains : List Domain) : Except Stop (List Domain) :=
  if (domains.map Domain.name).Nodup then domains.mapM (sanitizeDomain env criteria) else .error .invalid

variable (t : Target) (file : Text)

def criteriaOf : Except Stop (List Criterion) := do
  let lines ← contextCreate file
  let defs ← parseCriteria env.target lines
  sanitizeCriteria env defs

def settingsOf : Except Stop (List Domain) := do
  let lines ← contextCreate file
  parseSettings t lines

def create (criteriaFile settingsFile : Text) : Except Stop System :=
  if 128 < env.plugins.length then .error .invalid
  else do
    let criteria ← criteriaOf env criteriaFile
    let domains ← settingsOf env.target settingsFile
    let domains ← sanitizeSettings env criteria domains
    return ⟨criteria, domains⟩

/-! ## Well-typed leaves -/

/-- A predicate of the type of a criterion, and a state of it: an index, a mask or an interval. -/
def Ranges.Takes (state : Field) : Prop :=
  match ranges, p, state with
  | .exclusive .., .is, .v state | .exclusive .., .isNot, .v state => ranges.Holds state
  | .inclusive .., .includes, .v state | .inclusive .., .excludes, .v state => ranges.Holds state
  | .numerical _, .isIn, .itv _ | .numerical _, .notIn, .itv _ => True
  | _, _, _ => False

def Leaf.Typed (l : Leaf) : Prop :=
  ∃ c, find criteria l.criterion = some c ∧ c.ranges.Takes l.predicate l.state

/-- The member of the union that `pfw_rule_match_atomic` uses is the one that was stored last. -/
def Leaf.Reads (l : Leaf) : Prop :=
  match l.predicate with
  | .isIn | .notIn => ∃ itv, l.state = .itv itv
  | _ => ∃ state, l.state = .v state

/-- A predicate that belongs to a later case of the switch than the type of the criterion. -/
def Ranges.FallsThrough : Prop :=
  match ranges with
  | .exclusive .. => p ≠ .is ∧ p ≠ .isNot
  | .inclusive .. => p = .isIn ∨ p = .notIn
  | .numerical _ => False

def Leaf.FallsThrough (criteria : List Criterion) (l : Leaf) : Prop :=
  ∃ c, find criteria l.criterion = some c ∧ c.ranges.FallsThrough l.predicate

section Leaves

variable {env : Env} {criteria : List Criterion} {l l' : Leaf}

theorem Leaf.Typed.reads (h : l.Typed criteria) : l.Reads := by
  obtain ⟨criterion, predicate, state⟩ := l
  obtain ⟨⟨names, ranges, value, init⟩, -, h⟩ := h
  cases predicate <;> cases state <;> first | exact ⟨_, rfl⟩ | (cases ranges <;> exact h.elim)

theorem holds_atoi {t : Target} {ranges : Ranges} {value : Text} {state : BitVec 32}
    (hnum : ∀ intervals, ranges ≠ .numerical intervals) (h : atoi t ranges value = some state) :
    ranges.Holds state := by
  cases ranges with
  | numerical intervals => exact absurd rfl (hnum intervals)
  | inclusive literals fits => exact declared_atoi h
  | exclusive literals fits =>
    obtain ⟨i, hi, rfl⟩ := Option.map_eq_some_iff.mp h
    have hlt := lt_of_findIdx? hi
    have hint := toInt_index (lt_of_lt_of_le hlt fits)
    simp only [Ranges.Holds, hint]
    omega

theorem sanitizeLeaf_spec (h : sanitizeLeaf env criteria l = .ok l') :
    ∃ c, find criteria l.criterion = some c ∧ accepts c.ranges l.predicate ∧ l'.criterion = l.criterion ∧
      l'.predicate = l.predicate ∧
        ((∃ intervals, c.ranges = .numerical intervals ∧ l'.state = l.state) ∨
          (∀ intervals, c.ranges ≠ .numerical intervals) ∧ ∃ state, l'.state = .v state ∧ c.ranges.Holds state) := by
  unfold sanitizeLeaf at h
  cases hfind : find criteria l.criterion with
  | none => simp [hfind] at h
  | some c =>
    refine ⟨c, rfl, ?_⟩
    simp only [hfind] at h
    cases hranges : c.ranges with
    | numerical intervals =>
      simp only [hranges] at h
      split_ifs at h with hacc
      obtain rfl := Except.ok.inj h
      exact ⟨hacc, rfl, rfl, .inl ⟨intervals, rfl, rfl⟩⟩
    | _ =>
      simp only [hranges] at h
      cases hatoi : atoi env.target c.ranges (l.state.text env) with
      | none => simp [← hranges, hatoi] at h
      | some state =>
        simp only [← hranges, hatoi, Option.map_some] at h
        split_ifs at h with hacc
        obtain rfl := Except.ok.inj h
        have hnum : ∀ intervals, c.ranges ≠ .numerical intervals := by simp [hranges]
        rw [← hranges]
        exact ⟨hacc, rfl, rfl, .inr ⟨hnum, state, rfl, holds_atoi hnum hatoi⟩⟩

theorem takes_numerical {intervals : List Interval} (hacc : accepts (.numerical intervals) l.predicate)
    (hparsed : l.Parsed) : (Ranges.numerical intervals).Takes l.predicate l.state := by
  obtain ⟨criterion, predicate, state⟩ := l
  cases predicate with
  | isIn | notIn =>
    obtain ⟨itv, rfl⟩ := hparsed
    trivial
  | _ => simp [accepts] at hacc

theorem typed_iff (hparsed : l.Parsed) (h : sanitizeLeaf env criteria l = .ok l') :
    l'.Typed criteria ↔ ¬l.FallsThrough criteria := by
  obtain ⟨c, hfind, hacc, hcrit, hpred, hstate⟩ := sanitizeLeaf_spec h
  have htyped : l'.Typed criteria ↔ c.ranges.Takes l.predicate l'.state := by
    simp [Leaf.Typed, hcrit, hpred, hfind]
  have hfalls : l.FallsThrough criteria ↔ c.ranges.FallsThrough l.predicate := by
    simp [Leaf.FallsThrough, hfind]
  rw [htyped, hfalls]
  rcases hstate with ⟨intervals, hranges, hsame⟩ | ⟨hnum, state, hsame, hholds⟩
  · rw [hranges] at hacc ⊢
    rw [hsame]
    exact iff_of_true (takes_numerical hacc hparsed) id
  · rw [hsame]
    cases hranges : c.ranges with
    | numerical intervals => exact absurd hranges (hnum intervals)
    | exclusive literals fits =>
      rw [hranges] at hholds
      cases l.predicate <;> simp [Ranges.Takes, Ranges.FallsThrough, hholds]
    | inclusive literals fits =>
      generalize l.predicate = p at hacc
      cases p <;> simp_all [Ranges.Takes, Ranges.FallsThrough, accepts]

end Leaves

section Files

variable {env : Env} {criteria : List Criterion}

abbrev Stored (env : Env) (criteria : List Criterion) : List Leaf → List Leaf → Prop :=
  List.Forall₂ fun l l' => sanitizeLeaf env criteria l = .ok l'

mutual

theorem stored_sanitizeRule : ∀ {rule rule' : Rule}, sanitizeRule env criteria rule = .ok rule' →
    Stored env criteria rule.leaves rule'.leaves
  | .leaf l, _, h => by
    obtain ⟨l', hl, rfl⟩ := map_eq_ok_iff.mp h
    exact .cons hl .nil
  | .all branches, _, h => by
    obtain ⟨branches', hb, rfl⟩ := map_eq_ok_iff.mp h
    exact stored_sanitizeRules hb
  | .any branches, _, h => by
    obtain ⟨branches', hb, rfl⟩ := map_eq_ok_iff.mp h
    exact stored_sanitizeRules hb

theorem stored_sanitizeRules : ∀ {rules rules' : List Rule}, sanitizeRules env criteria rules = .ok rules' →
    Stored env criteria (leavesAll rules) (leavesAll rules')
  | [], _, h => by
    obtain rfl := Except.ok.inj h
    exact .nil
  | rule :: rules, _, h => by
    obtain ⟨rule', hrule, h⟩ := bind_eq_ok_iff.mp h
    obtain ⟨rules', hrules, h⟩ := bind_eq_ok_iff.mp h
    obtain rfl := Except.ok.inj h
    exact rel_append (stored_sanitizeRule hrule) (stored_sanitizeRules hrules)

end

theorem stored_sanitizeConfig {c c' : Config} (h : sanitizeConfig env criteria c = .ok c') :
    Stored env criteria (leavesAll c.rules.toList) (leavesAll c'.rules.toList) := by
  unfold sanitizeConfig at h
  cases hrules : c.rules with
  | none => simp [hrules] at h
  | some rule =>
    simp only [hrules] at h
    obtain ⟨rule', hrule, h⟩ := bind_eq_ok_iff.mp h
    obtain ⟨acts, -, h⟩ := bind_eq_ok_iff.mp h
    obtain rfl := Except.ok.inj h
    simpa [leavesAll] using stored_sanitizeRule hrule

theorem stored_flatMap {α : Type} {f : α → List Leaf} {as as' : List α}
    (h : List.Forall₂ (fun a a' => Stored env criteria (f a) (f a')) as as') :
    Stored env criteria (as.flatMap f) (as'.flatMap f) := by
  induction h with
  | nil => exact .nil
  | cons ha _ ih => exact rel_append ha ih

theorem stored_sanitizeDomain {d d' : Domain} (h : sanitizeDomain env criteria d = .ok d') :
    Stored env criteria (d.configs.flatMap fun c => leavesAll c.rules.toList)
      (d'.configs.flatMap fun c => leavesAll c.rules.toList) := by
  obtain ⟨configs, hconfigs, rfl⟩ := map_eq_ok_iff.mp h
  exact stored_flatMap ((forall₂_of_mapM hconfigs).imp fun _ _ => stored_sanitizeConfig)

theorem stored_sanitizeSettings {domains domains' : List Domain}
    (h : sanitizeSettings env criteria domains = .ok domains') :
    Stored env criteria (leavesOf domains) (leavesOf domains') := by
  unfold sanitizeSettings at h
  split_ifs at h
  exact stored_flatMap ((forall₂_of_mapM h).imp fun _ _ => stored_sanitizeDomain)

theorem forall_mem_iff_of_stored {P Q : Leaf → Prop} {ls ls' : List Leaf} (h : Stored env criteria ls ls')
    (hls : ∀ l ∈ ls, ∀ l', sanitizeLeaf env criteria l = .ok l' → (P l' ↔ Q l)) :
    (∀ l' ∈ ls', P l') ↔ ∀ l ∈ ls, Q l := by
  induction h with
  | nil => simp
  | cons hl _ ih =>
    rw [forall_mem_cons] at hls
    rw [forall_mem_cons, forall_mem_cons, hls.1 _ hl, ih hls.2]

/-- In a system that is accepted, every leaf has a predicate of the type of its criterion and holds an index, a mask or
an interval as that predicate reads it, exactly if no leaf falls through the switch. -/
theorem rules_typed_iff (env : Env) (criteriaFile settingsFile : Text) (sys : System)
    (h : create env criteriaFile settingsFile = .ok sys) :
    ∃ domains, settingsOf env.target settingsFile = .ok domains ∧
      ((∀ l ∈ leavesOf sys.domains, l.Typed sys.criteria ∧ l.Reads) ↔
        ∀ l ∈ leavesOf domains, ¬l.FallsThrough sys.criteria) := by
  unfold create at h
  split_ifs at h
  obtain ⟨criteria, -, h⟩ := bind_eq_ok_iff.mp h
  obtain ⟨domains, hdomains, h⟩ := bind_eq_ok_iff.mp h
  obtain ⟨domains', hsan, h⟩ := bind_eq_ok_iff.mp h
  obtain rfl := Except.ok.inj h
  refine ⟨domains, hdomains, ?_⟩
  obtain ⟨lines, -, hparse⟩ := bind_eq_ok_iff.mp hdomains
  have hparsed := parsed_parseSettings hparse
  refine forall_mem_iff_of_stored (stored_sanitizeSettings hsan) fun l hl l' hl' => ?_
  rw [and_iff_left_of_imp Leaf.Typed.reads]
  exact typed_iff (hparsed l hl) hl'

def fileOf (lines : List (Nat × List Text)) : Text :=
  lines.flatMap fun line => List.replicate line.1 9 ++ ([32] : Text).intercalate line.2 ++ [10]

def plainEnv : Env where
  target := .bits32
  text itv := if itv.left = 0 then [] else [1]
  text_of_zero _ h := if_pos h
  plugins := [chars ['p']]
  load _ state := state

def twoCriteria : Text :=
  fileOf [(0, [exclusiveWord, chars ['m'], chars [':'], chars ['a'], chars ['b']]),
    (0, [inclusiveWord, chars ['d'], chars [':'], chars ['a'], chars ['b']])]

def oneLeaf (leaf : List Text) : Text :=
  fileOf [(0, [domainWord, chars ['x']]), (1, [confWord, chars ['c']]),
    (2, leaf), (2, [chars ['p'], chars ['='], chars ['1']])]

def oneLeafSystem (leaf : Leaf) : System where
  criteria :=
    [⟨[chars ['m']], .exclusive [chars ['a'], chars ['b']] length_literals_le, 0, 0⟩,
      ⟨[chars ['d']], .inclusive [chars ['a'], chars ['b']] length_masks_le, 0, 0⟩]
  domains := [⟨chars ['x'], [⟨[.raw (chars ['c'])], some (.leaf leaf), [⟨chars ['p'], [.raw (chars ['1'])]⟩]⟩]⟩]

theorem rules_typed_modeIs :
    create plainEnv twoCriteria (oneLeaf [chars ['m'], chars ['I', 's'], chars ['b']]) =
        .ok (oneLeafSystem ⟨chars ['m'], .is, .v 1⟩) ∧
      ∀ l ∈ leavesOf (oneLeafSystem ⟨chars ['m'], .is, .v 1⟩).domains,
        l.Typed (oneLeafSystem ⟨chars ['m'], .is, .v 1⟩).criteria ∧ l.Reads := by
  refine ⟨rfl, ?_⟩
  obtain ⟨domains, hdomains, h⟩ := rules_typed_iff plainEnv twoCriteria
    (oneLeaf [chars ['m'], chars ['I', 's'], chars ['b']]) (oneLeafSystem ⟨chars ['m'], .is, .v 1⟩) rfl
  obtain rfl := Except.ok.inj hdomains
  refine h.mpr fun l hl => ?_
  obtain rfl := mem_singleton.mp hl
  rintro ⟨c, hc, hfalls⟩
  obtain rfl := Option.some.inj hc
  exact hfalls.1 rfl

/-- `m Includes b` is accepted for the exclusive `m`; `d In [0,5]` for the inclusive `d`, where the pointer to the
interval is overwritten by the mask of the empty text. -/
theorem ill_typed_accepted :
    (∃ sys, create plainEnv twoCriteria
        (oneLeaf [chars ['m'], chars ['I', 'n', 'c', 'l', 'u', 'd', 'e', 's'], chars ['b']]) =
      .ok sys ∧ ¬∀ l ∈ leavesOf sys.domains, l.Typed sys.criteria ∧ l.Reads) ∧
    ∃ sys, create plainEnv twoCriteria (oneLeaf [chars ['d'], chars ['I', 'n'], chars ['[', '0', ',', '5', ']']]) =
      .ok sys ∧ ¬∀ l ∈ leavesOf sys.domains, l.Typed sys.criteria ∧ l.Reads := by
  refine ⟨⟨oneLeafSystem ⟨chars ['m'], .includes, .v 1⟩, rfl, fun h => ?_⟩,
    ⟨oneLeafSystem ⟨chars ['d'], .isIn, .v 0⟩, rfl, fun h => ?_⟩⟩
  · obtain ⟨⟨c, hc, htakes⟩, -⟩ := h _ mem_cons_self
    obtain rfl := Option.some.inj hc
    exact htakes
  · obtain ⟨-, itv, hitv⟩ := h _ mem_cons_self
    simp at hitv

end Files

/-- The indent is mixed, is not of four spaces, or is not of the character that earlier lines have. -/
def Misindented (line : Text) : Prop :=
  let space := (line.takeWhile isBlank).count 32
  let tab := (line.takeWhile isBlank).count 9
  0 < space ∧ 0 < tab ∨ space % 4 ≠ 0 ∨ 0 < space ∧ indent = some 9 ∨ 0 < tab ∧ indent = some 32

def withoutMisindented (indent : Option UInt8) : List Text → List Text
  | [] => []
  | line :: rest =>
    match skipIndent indent line with
    | none => withoutMisindented indent rest
    | some (_, indent, _) => line :: withoutMisindented indent rest

def Rejected : Prop := ∀ domains, settingsOf t file ≠ .ok domains

theorem skipIndent_eq_none_iff {indent : Option UInt8} {line : Text} :
    skipIndent indent line = none ↔ Misindented indent line := by
  rw [skipIndent, Misindented]
  generalize (line.takeWhile isBlank).count 32 = space, (line.takeWhile isBlank).count 9 = tab
  split_ifs <;> simp only [true_iff, false_iff] <;> grind

theorem followingLines_without (lines : List Text) :
    followingLines indent (withoutMisindented indent lines) = followingLines indent lines := by
  induction lines generalizing indent with
  | nil => rfl
  | cons line lines ih =>
    rw [withoutMisindented, followingLines]
    cases hskip : skipIndent indent line with
    | none => exact ih indent
    | some r =>
      obtain ⟨text, indent', depth⟩ := r
      rw [followingLines, hskip]
      dsimp only
      rw [ih indent']

/-- Of the lines with a wrong indent, only the first line of the file makes `pfw_parse_settings` fail; the others
could as well not be there. -/
theorem rejected_iff {t : Target} {file file' first : Text} {rest : List Text}
    (hlines : tokens (· == 10) (cstr file) = first :: rest)
    (hlines' : tokens (· == 10) (cstr file') = withoutMisindented none (first :: rest)) :
    Rejected t file ↔ Misindented none first ∨ Rejected t file' := by
  cases hskip : skipIndent none first with
  | none =>
    refine iff_of_true (fun domains h => ?_) (.inl (skipIndent_eq_none_iff.mp hskip))
    rw [settingsOf, contextCreate, hlines] at h
    dsimp only at h
    rw [hskip] at h
    cases h
  | some r =>
    obtain ⟨text, indent, depth⟩ := r
    have hfirst : ¬Misindented none first := fun h => by simp [skipIndent_eq_none_iff.mpr h] at hskip
    have hcontext : contextCreate file' = contextCreate file := by
      rw [withoutMisindented, hskip] at hlines'
      rw [contextCreate, contextCreate, hlines, hlines']
      dsimp only
      rw [hskip]
      dsimp only
      rw [followingLines_without]
    rw [or_iff_right hfirst, Rejected, Rejected, settingsOf, settingsOf, hcontext]

theorem rejected_first_line : Rejected .bits32 (chars [' ', 'z', '\n'] ++ domainWord) :=
  (@rejected_iff .bits32 _ domainWord (chars [' ', 'z']) [domainWord] rfl rfl).mpr (.inl (.inr (.inl (by decide))))

/-- Three spaces in front of `y` are a wrong indent, and the file without that line is accepted. -/
theorem misindented_accepted :
    Misindented none (chars [' ', ' ', ' ', 'y']) ∧
    settingsOf .bits32 (domainWord ++ chars [' ', 'x', '\n', ' ', ' ', ' ', 'y']) = .ok [⟨chars ['x'], []⟩] :=
  ⟨.inr (.inl (by decide)), rfl⟩

end NuttxApps.Pfw
