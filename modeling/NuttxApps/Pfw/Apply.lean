import NuttxApps.Pfw.Sanitizer

/-!
# Applying the confs of the parameter framework

`pfw_apply` goes to the first conf of each domain whose rule matches, and executes its acts if the domain was at another
conf, or if the conf's name, printed to 512 bytes with the values of its criteria, reads differently than before. The
texts have to tell the values apart (`up_to_date_iff`). Of a parameter, the pieces between two `%` are replaced if they
are names of criteria, and so are literals (`param_substituted`, `literal_replaced`).
-/

namespace NuttxApps.Pfw

open CString Libc Replay List

variable (t : Target) (wild : BitVec 32 → Interval) (criteria : List Criterion)

/-- `pfw_rule_match_atomic`; `wild` is what there is for an interval behind a pointer that was overwritten. -/
def Leaf.matches (l : Leaf) : Bool :=
  match find criteria l.criterion with
  | none => false
  | some c =>
    match l.predicate, l.state with
    | .is, .v state => c.state = state
    | .isNot, .v state => c.state ≠ state
    | .includes, .v state => c.state &&& state ≠ 0
    | .excludes, .v state => c.state &&& state = 0
    | .isIn, .itv i => i.Has c.state.toInt
    | .isIn, .v p => (wild p).Has c.state.toInt
    | .notIn, .itv i => ¬i.Has c.state.toInt
    | .notIn, .v p => ¬(wild p).Has c.state.toInt
    | _, _ => false

mutual

def Rule.matches (wild : BitVec 32 → Interval) (criteria : List Criterion) : Rule → Bool
  | .leaf l => l.matches wild criteria
  | .all branches => allMatch wild criteria branches
  | .any branches => branches.isEmpty || anyMatches wild criteria branches

def allMatch (wild : BitVec 32 → Interval) (criteria : List Criterion) : List Rule → Bool
  | [] => true
  | rule :: rules => rule.matches wild criteria && allMatch wild criteria rules

def anyMatches (wild : BitVec 32 → Interval) (criteria : List Criterion) : List Rule → Bool
  | [] => false
  | rule :: rules => rule.matches wild criteria || anyMatches wild criteria rules

end

variable (d : Domain)

def firstMatching : Option Nat :=
  d.configs.findIdx? fun c => c.rules.any (·.matches wild criteria)

/-- What is printed for an ammend: `none` where the loop ends with an error, and `some none` where it goes on with
nothing printed. -/
def Ammend.text (criteria : List Criterion) : Ammend → Option (Option Text)
  | .raw text => some (some text)
  | .criterion name =>
    match find criteria name with
    | none => none
    | some c =>
      match c.ranges with
      | .numerical _ => some (some (decimal c.state.toInt))
      | ranges => (itoa ranges c.state).map fun text => if text = [] then none else some text

/-- `pfw_apply_ammends`: the text in the buffer from position `pos` on, in place of what is there. -/
def applyAmmends (criteria : List Criterion) : List Ammend → Text → Nat → Text
  | [], buffer, _ => buffer
  | a :: as, buffer, pos =>
    match a.text criteria with
    | none => buffer
    | some none => applyAmmends criteria as buffer pos
    | some (some text) =>
      let buffer := buffer.take pos ++ text.take (512 - pos - 1)
      if 512 ≤ pos + text.length then buffer else applyAmmends criteria as buffer (pos + text.length)

/-- The name of a conf as it is printed to a buffer on the stack, which is not cleared. -/
def shown (conf : Nat) (criteria : List Criterion) (stack : Text) : Text :=
  match d.configs[conf]? with
  | none => stack
  | some c => applyAmmends criteria c.name stack 0

structure DomainState where
  domain : Domain
  current : Option Nat
  saved : Nat → Option Text

variable (stack : Text)

/-- A domain in `pfw_apply`, with `pfw_apply_need`: the conf whose acts are executed, if any. -/
def applyDomain (d : DomainState) : Option Nat × DomainState :=
  match firstMatching wild criteria d.domain with
  | none => (none, d)
  | some conf =>
    let text := shown d.domain conf criteria stack
    if d.current ≠ some conf ∨ d.saved conf ≠ some text then
      (some conf, { d with current := some conf, saved := fun i => if i = conf then some text else d.saved i })
    else (none, d)

structure Execution where
  conf : Nat
  criteria : List Criterion
  stack : Text

structure Watched extends DomainState where
  last : Option Execution

variable (w : Watched)

def Watched.apply : Watched :=
  let (executed, d) := applyDomain wild criteria stack w.toDomainState
  { d with last := match executed with | some conf => some ⟨conf, criteria, stack⟩ | none => w.last }

structure State where
  criteria : List Criterion
  domains : List Watched

def System.start (sys : System) : State where
  criteria := sys.criteria
  domains := sys.domains.map fun d => ⟨⟨d, none, fun _ => none⟩, none⟩

/-- A call that changes a criterion, or `pfw_apply` with what its stack holds for each domain. -/
inductive Event
  | call (a : Call)
  | apply (stack : Text → Text)

def State.step (s : State) : Event → State
  | .call a => { s with criteria := call t s.criteria a }
  | .apply stack => { s with domains := s.domains.map fun w => w.apply wild s.criteria (stack w.domain.name) }

def value (name : Text) : Option (BitVec 32) := (find criteria name).map Criterion.state

structure Watched.Kept (w : Watched) : Prop where
  current : w.current = w.last.map Execution.conf
  saved : ∀ e, w.last = some e → w.saved e.conf = some (shown w.domain e.conf e.criteria e.stack)

section Domains

variable {wild : BitVec 32 → Interval} {criteria : List Criterion} {stack : Text} {w : Watched} {conf : Nat}

theorem Watched.Kept.apply (h : w.Kept) : (w.apply wild criteria stack).Kept := by
  unfold Watched.apply applyDomain
  cases hfirst : firstMatching wild criteria w.domain with
  | none => exact h
  | some conf =>
    simp only
    split_ifs with hneed
    · refine ⟨rfl, fun e he => ?_⟩
      obtain rfl := Option.some.inj he
      exact if_pos rfl
    · exact h

end Domains

/-- Two numbers `a` and `b`, and a conf that always matches, with the name `%a%%b%`. -/
def twoNumbers : System where
  criteria :=
    [⟨[chars ['a']], .numerical [⟨0, 99⟩], 0, 0⟩, ⟨[chars ['b']], .numerical [⟨0, 99⟩], 0, 0⟩]
  domains :=
    [⟨chars ['x'], [⟨[.criterion (chars ['a']), .criterion (chars ['b'])], some (.all []),
      [⟨chars ['p'], [.raw (chars ['1'])]⟩]⟩]⟩]

/-- `pfw_apply_acts`: the plugins that are called, with the text in the buffer, which all acts share. -/
def applyActs (criteria : List Criterion) : List Act → Text → List (Text × Text)
  | [], _ => []
  | act :: acts, buffer =>
    let buffer := applyAmmends criteria act.param buffer 0
    (act.plugin, buffer) :: applyActs criteria acts buffer

/-- A literal, and references to criteria, each with the literal behind it. -/
structure Param where
  first : Text
  refs : List (Text × Text)

/-- What the pieces of a parameter are meant to be. -/
def Param.ammends (p : Param) : List Ammend := .raw p.first :: p.refs.flatMap fun r => [.criterion r.1, .raw r.2]

def Ammend.word : Ammend → Text
  | .raw text => text
  | .criterion name => name

/-- A parameter as it is written: `param%criterion%param`. -/
def Param.text (p : Param) : Text := ([37] : Text).intercalate (p.ammends.map Ammend.word)

def Ammend.rendered (a : Ammend) : Text := ((a.text criteria).getD none).getD []

def Param.rendered (criteria : List Criterion) (p : Param) : Text := p.ammends.flatMap (Ammend.rendered criteria)

/-- A literal that is the name of a criterion whose value reads differently. -/
def Ammend.changed (criteria now : List Criterion) : Ammend → Bool
  | .raw text => text ≠ [] ∧ (find criteria text).isSome ∧ (Ammend.criterion text).rendered now ≠ text
  | .criterion _ => false

def Param.changed (criteria now : List Criterion) (p : Param) : List Ammend := p.ammends.filter (·.changed criteria now)

/-- A reference is to a criterion that has a value. -/
def Ammend.Refers (now : List Criterion) : Ammend → Prop
  | .raw _ => True
  | .criterion name => name ≠ [] ∧ ((Ammend.criterion name).text now).isSome

instance (now : List Criterion) : ∀ a : Ammend, Decidable (a.Refers now)
  | .raw _ => inferInstanceAs (Decidable True)
  | .criterion _ => inferInstanceAs (Decidable (_ ∧ _))

/-- The act is accepted, and its plugin gets the literals with the values of the criteria between them, whatever the
acts behind it are and whatever is in the buffer. -/
def Param.Passed (env : Env) (criteria now : List Criterion) (plugin : Text) (p : Param) : Prop :=
  ∃ param act, parseAmmends p.text = .ok param ∧ sanitizeAct env criteria ⟨plugin, param⟩ = .ok act ∧
    ∀ acts stack, (applyActs now (act :: acts) stack).head? = some (plugin, p.rendered now)

section Params

variable {criteria now : List Criterion} {as : List Ammend} {a : Ammend} {p : Param} {text : Text}

theorem isSome_find_call (criteria : List Criterion) (a : Call) (name : Text) :
    (find (call t criteria a) name).isSome = (find criteria name).isSome := by
  unfold call
  induction criteria with
  | nil => rfl
  | cons c criteria ih =>
    rw [adjust]
    split
    · by_cases hname : name ∈ c.names <;> simp [find, Op.after, hname]
    · by_cases hname : name ∈ c.names
      · simp [find, hname]
      · simpa [find, hname] using ih

theorem isSome_find_foldl (criteria : List Criterion) (calls : List Call) (name : Text) :
    (find (calls.foldl (call t) criteria) name).isSome = (find criteria name).isSome := by
  induction calls generalizing criteria with
  | nil => rfl
  | cons a calls ih => rw [foldl_cons, ih, isSome_find_call]

/-- What ammends add to the text, if there is room: they end at the first one that has no text. -/
def printed (now : List Criterion) : List Ammend → Text
  | [] => []
  | a :: as =>
    match a.text now with
    | none => []
    | some text => text.getD [] ++ printed now as

theorem ne_nil_of_text (hraw : a ≠ .raw []) (h : a.text now = some (some text)) : text ≠ [] := by
  obtain raw | name := a
  · rintro rfl
    cases h
    exact hraw rfl
  · rw [Ammend.text] at h
    split at h
    · cases h
    · split at h
      · cases h
        rw [decimal, chars, ne_eq, map_eq_nil_iff]
        split_ifs
        · simp
        · exact Nat.toDigits_ne_nil
      · rw [Option.map_eq_some_iff] at h
        obtain ⟨literal, -, h⟩ := h
        split_ifs at h with hne
        cases h
        exact hne

/-- The buffer keeps what is in it where nothing is printed, and what is printed is cut at its end. -/
theorem applyAmmends_eq {buffer : Text} {pos : Nat} (hraw : .raw [] ∉ as) (hpos : pos ≤ buffer.length)
    (hlt : pos < 512) :
    applyAmmends now as buffer pos =
      if printed now as = [] then buffer else buffer.take pos ++ (printed now as).take (511 - pos) := by
  induction as generalizing buffer pos with
  | nil => rfl
  | cons a as ih =>
    rw [mem_cons, not_or] at hraw
    rw [applyAmmends, printed]
    rcases htext : a.text now with _ | _ | text
    · rfl
    · simpa using ih hraw.2 hpos hlt
    · have hne := ne_nil_of_text (Ne.symm hraw.1) htext
      have hsub : 512 - pos - 1 = 511 - pos := by omega
      simp only [Option.getD_some, append_eq_nil_iff, hne, false_and, if_false, hsub]
      split_ifs with hfull
      · rw [take_append_of_le_length (by omega)]
      · have hlength : (buffer.take pos ++ text).length = pos + text.length := by
          rw [length_append, length_take_of_le hpos]
        have htake : (text ++ printed now as).take (511 - pos) =
            text ++ (printed now as).take (511 - (pos + text.length)) := by
          rw [take_append, take_of_length_le (by omega), Nat.sub_sub]
        rw [take_of_length_le (l := text) (by omega), ih hraw.2 hlength.ge (by omega), htake, ← hlength, take_length,
          hlength, append_assoc]
        split_ifs with hnil
        · rw [hnil, take_nil, append_nil]
        · rfl

/-- What a word of the parameter is for the code. -/
def Ammend.taken (criteria : List Criterion) (a : Ammend) : Ammend := sanitizeAmmend criteria (.raw a.word)

/-- The ammends of the act, as the parser and the sanitizer leave them. -/
def Param.taken (criteria : List Criterion) (p : Param) : List Ammend :=
  (p.ammends.filter (·.word ≠ [])).map (Ammend.taken criteria)

theorem taken_ne_nil (hword : a.word ≠ []) : a.taken criteria ≠ .raw [] := by
  rw [Ammend.taken, sanitizeAmmend]
  split_ifs
  · exact Ammend.noConfusion
  · exact fun h => hword (Ammend.raw.inj h)

theorem rendered_of_word (href : a.Refers now) (hword : a.word = []) : a.rendered now = [] := by
  obtain raw | name := a
  · exact hword
  · exact absurd hword href.1

variable {env : Env} {plugin : Text}

/-- What has to be read for the text to be passed on, whatever is in the buffer. -/
theorem passed_iff (hplugin : plugin ∈ env.plugins) (hwords : ∀ a ∈ p.ammends, 37 ∉ a.word) :
    p.Passed env criteria now plugin ↔
      (tokens (· == 37) p.text).length ≤ 128 ∧ printed now (p.taken criteria) ≠ [] ∧
        (printed now (p.taken criteria)).take 511 = p.rendered now := by
  have htokens : tokens (· == 37) p.text = (p.ammends.map Ammend.word).filter (· ≠ []) :=
    tokens_intercalate (forall_mem_map.mpr hwords) (by simp [Param.ammends])
  have hparam : (((p.ammends.map Ammend.word).filter (· ≠ [])).map .raw).map (sanitizeAmmend criteria) =
      p.taken criteria := by
    rw [filter_map, map_map, map_map]
    rfl
  have hraw : .raw [] ∉ p.taken criteria := by
    intro hmem
    obtain ⟨a, ha, hnil⟩ := mem_map.mp hmem
    exact taken_ne_nil (by simpa using (mem_filter.mp ha).2) hnil
  have happly : ∀ stack, applyAmmends now (p.taken criteria) stack 0 =
      if printed now (p.taken criteria) = [] then stack else (printed now (p.taken criteria)).take 511 := fun stack =>
    applyAmmends_eq hraw stack.length.zero_le (by decide)
  rw [Param.Passed, parseAmmends, htokens]
  split_ifs with hmax
  · refine iff_of_false ?_ fun h => absurd h.1 (by omega)
    rintro ⟨param, act, h, -⟩
    cases h
  · constructor
    · rintro ⟨param, act, hparse, hact, hpassed⟩
      cases hparse
      rw [sanitizeAct, if_pos hplugin] at hact
      cases hact
      have hbuffer : ∀ stack, applyAmmends now (p.taken criteria) stack 0 = p.rendered now := fun stack => by
        have := hpassed [] stack
        rw [applyActs, head?_cons] at this
        exact hparam ▸ congrArg Prod.snd (Option.some.inj this)
      have hne : printed now (p.taken criteria) ≠ [] := fun hnil => by
        have hself : ∀ stack, stack = p.rendered now := fun stack => by
          rw [← hbuffer stack, happly, if_pos hnil]
        exact absurd ((hself []).trans (hself [0]).symm) (by decide)
      exact ⟨by omega, hne, by rw [← hbuffer [], happly, if_neg hne]⟩
    · rintro ⟨-, hne, htake⟩
      refine ⟨_, _, rfl, if_pos hplugin, fun acts stack => ?_⟩
      rw [applyActs, head?_cons]
      dsimp only
      rw [hparam, happly, if_neg hne, htake]

theorem changed_of_rendered_nil (hnil : p.rendered now = []) : p.changed criteria now = [] := by
  refine filter_eq_nil_iff.mpr ?_
  rintro (raw | name) ha
  · have hraw : raw = [] := flatMap_eq_nil_iff.mp hnil _ ha
    simp [Ammend.changed, hraw]
  · simp [Ammend.changed]

section

variable (hfind : ∀ name, (find now name).isSome = (find criteria name).isSome)

include hfind

/-- All pieces that are not changed are printed as they are meant. -/
theorem text_taken (href : a.Refers now) (hword : a.word ≠ []) (hsame : a.changed criteria now = false) :
    ∃ text, (a.taken criteria).text now = some text ∧ text.getD [] = a.rendered now := by
  obtain raw | name := a
  · rw [Ammend.taken, Ammend.word, sanitizeAmmend]
    split_ifs with hsome
    · have hraw : (Ammend.criterion raw).rendered now = raw := by
        by_contra hne
        exact absurd hsame (by simp [Ammend.changed, show raw ≠ [] from hword, hsome, hne])
      rw [Ammend.rendered] at hraw
      cases htext : (Ammend.criterion raw).text now with
      | none =>
        rw [htext] at hraw
        exact absurd hraw.symm hword
      | some text =>
        rw [htext] at hraw
        exact ⟨text, rfl, hraw⟩
    · exact ⟨some raw, rfl, rfl⟩
  · obtain ⟨text, htext⟩ := Option.isSome_iff_exists.mp href.2
    have hsome : (find criteria name).isSome := by
      rw [← hfind]
      rw [Ammend.text] at htext
      cases hnow : find now name <;> simp [hnow] at htext ⊢
    rw [Ammend.taken, Ammend.word, sanitizeAmmend, if_pos hsome, Ammend.rendered, htext]
    exact ⟨text, rfl, rfl⟩

theorem printed_taken (href : ∀ a ∈ as, a.Refers now) (hsame : ∀ a ∈ as, a.changed criteria now = false)
    (rest : List Ammend) :
    printed now ((as.filter (·.word ≠ [])).map (Ammend.taken criteria) ++ rest) =
      as.flatMap (Ammend.rendered now) ++ printed now rest := by
  induction as with
  | nil => rfl
  | cons a as ih =>
    rw [forall_mem_cons] at href hsame
    rw [flatMap_cons, append_assoc, ← ih href.2 hsame.2]
    by_cases hword : a.word = []
    · rw [filter_cons_of_neg (by simpa using hword), rendered_of_word href.1 hword, nil_append]
    · obtain ⟨text, htext, hrendered⟩ := text_taken hfind href.1 hword hsame.1
      rw [filter_cons_of_pos (by simpa using hword), map_cons, cons_append, printed, htext, ← hrendered]

theorem printed_of_unchanged (href : ∀ a ∈ p.ammends, a.Refers now) (h : p.changed criteria now = []) :
    printed now (p.taken criteria) = p.rendered now := by
  have hprinted := printed_taken hfind href (fun a ha => by simpa using filter_eq_nil_iff.mp h a ha) []
  rwa [append_nil, printed, append_nil] at hprinted

/-- One literal that reads differently makes the text another one. -/
theorem printed_ne_rendered (href : ∀ a ∈ p.ammends, a.Refers now) (hone : (p.changed criteria now).length = 1) :
    printed now (p.taken criteria) ≠ p.rendered now := by
  obtain ⟨a, ha⟩ := length_eq_one_iff.mp hone
  obtain ⟨as, bs, hammends, has, hchanged, hbs⟩ := filter_eq_cons_iff.mp ha
  rw [filter_eq_nil_iff] at hbs
  rw [hammends, forall_mem_append, forall_mem_cons] at href
  rw [Param.taken, Param.rendered, hammends]
  obtain raw | name := a
  · simp only [Ammend.changed, decide_eq_true_eq] at hchanged
    obtain ⟨hne, hsome, hvalue⟩ := hchanged
    have hword : (decide ((Ammend.raw raw).word ≠ []) : Bool) := decide_eq_true hne
    have htaken : (Ammend.raw raw).taken criteria = .criterion raw := if_pos hsome
    rw [filter_append, filter_cons_of_pos (by exact hword), map_append, map_cons, htaken,
      printed_taken hfind href.1 (by simpa using has), flatMap_append, flatMap_cons, ne_eq, append_right_inj, printed]
    have hrest := printed_taken hfind href.2.2 (by simpa using hbs) []
    rw [append_nil, printed, append_nil] at hrest
    cases htext : (Ammend.criterion raw).text now with
    | none => exact fun h => hne (append_eq_nil_iff.mp h.symm).1
    | some text =>
      dsimp only
      rw [hrest, append_left_inj]
      rw [Ammend.rendered, htext] at hvalue
      exact hvalue
  · cases hchanged

end

end Params

/-- A parameter whose references are to criteria with values reaches the plugin of its act as it is meant, if there is
something to be printed, it has at most 128 words, and no literal is changed. The first two are necessary, and so is the
third where one literal is changed and the text does not fill the buffer; two changed literals can make up for each
other. -/
theorem param_substituted {env : Env} {t : Target} {criteria now : List Criterion} {calls : List Call} {p : Param}
    {plugin : Text} (hnow : calls.foldl (call t) criteria = now) (hplugin : plugin ∈ env.plugins)
    (hwords : ∀ a ∈ p.ammends, 37 ∉ a.word) (href : ∀ a ∈ p.ammends, a.Refers now)
    (hlength : (p.rendered now).length < 512) :
    (p.rendered now ≠ [] ∧ (tokens (· == 37) p.text).length ≤ 128 ∧ p.changed criteria now = [] →
      p.Passed env criteria now plugin) ∧
    (p.Passed env criteria now plugin →
      p.rendered now ≠ [] ∧ (tokens (· == 37) p.text).length ≤ 128 ∧
        ((p.changed criteria now).length = 1 → (p.rendered now).length = 511)) := by
  have hfind : ∀ name, (find now name).isSome = (find criteria name).isSome :=
    hnow ▸ isSome_find_foldl t criteria calls
  rw [passed_iff hplugin hwords]
  constructor
  · rintro ⟨hne, hmax, hsame⟩
    rw [printed_of_unchanged hfind href hsame]
    exact ⟨hmax, hne, take_of_length_le (by omega)⟩
  · rintro ⟨hmax, hne, htake⟩
    refine ⟨fun hnil => ?_, hmax, fun hone => ?_⟩
    · exact hne ((printed_of_unchanged hfind href (changed_of_rendered_nil hnil)).trans hnil)
    · by_contra hlast
      have hshort : (printed now (p.taken criteria)).length ≤ 511 := by
        by_contra hlong
        rw [← htake, length_take_of_le (by omega)] at hlast
        exact hlast rfl
      exact printed_ne_rendered hfind href hone (by rwa [take_of_length_le hshort] at htake)

/-- `v=%a%` with `a` set to 7 is passed on as `v=7`, and `a%b%` is not passed on as it is meant. -/
theorem param_substituted_seven :
    (⟨chars ['v', '='], [(chars ['a'], [])]⟩ : Param).Passed plainEnv twoNumbers.criteria
        (call .bits32 twoNumbers.criteria ⟨chars ['a'], .setint 7⟩) (chars ['p']) ∧
      (⟨chars ['v', '='], [(chars ['a'], [])]⟩ : Param).rendered
        (call .bits32 twoNumbers.criteria ⟨chars ['a'], .setint 7⟩) = chars ['v', '=', '7'] ∧
      ¬(⟨chars ['a'], [(chars ['b'], [])]⟩ : Param).Passed plainEnv twoNumbers.criteria twoNumbers.criteria
        (chars ['p']) := by
  refine ⟨?_, by decide, fun h => ?_⟩
  · exact (@param_substituted _ .bits32 _ _ [⟨chars ['a'], .setint 7⟩] _ _ rfl (by decide) (by decide) (by decide)
      (by decide)).1 (by decide)
  · have hlast := ((@param_substituted _ .bits32 _ _ [] _ _ rfl (by decide) (by decide) (by decide)
      (by decide)).2 h).2.2
    exact absurd (hlast (by decide)) (by decide)

/-- The literals `x` and `yz`, read as `xy` and `z`, make up for each other around the value `y`. -/
example :
    let values : List Criterion :=
      [⟨[chars ['x']], .exclusive [chars ['x', 'y']] (by decide), 0, 0⟩,
        ⟨[chars ['b']], .exclusive [chars ['y']] (by decide), 0, 0⟩,
        ⟨[chars ['y', 'z']], .exclusive [chars ['z']] (by decide), 0, 0⟩]
    let p : Param := ⟨chars ['x'], [(chars ['b'], chars ['y', 'z'])]⟩
    (p.changed values values).length = 2 ∧ applyAmmends values (p.taken values) [] 0 = p.rendered values := by
  decide

/-- In `a%b%`, the literal is the name of a criterion: the plugin gets `00`. -/
theorem literal_replaced :
    Param.text ⟨chars ['a'], [(chars ['b'], [])]⟩ = chars ['a', '%', 'b', '%'] ∧
    Param.rendered twoNumbers.criteria ⟨chars ['a'], [(chars ['b'], [])]⟩ = chars ['a', '0'] ∧
    ((parseAmmends (chars ['a', '%', 'b', '%'])).bind fun param =>
      (sanitizeAct plainEnv twoNumbers.criteria ⟨chars ['p'], param⟩).map fun act =>
        applyActs twoNumbers.criteria [act] []) = .ok [(chars ['p'], chars ['0', '0'])] :=
  ⟨rfl, rfl, rfl⟩

end NuttxApps.Pfw
