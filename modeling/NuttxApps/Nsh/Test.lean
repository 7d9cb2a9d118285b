import NuttxApps.Framework.Libc

/-!
# `test` and `[`

`expression` reads its arguments from left to right and evaluates them on the way. The grammar in the comment at the
head of the file is `Derives`, with `-a` and `-o` taken from the right and `!` applied to all that follows
(`Derives.unique`). `Reach` says how far `expression` gets, and how many `!` it passes; `exact_iff` says for which
vectors it returns the value of the grammar.
-/

namespace NuttxApps.Nsh.Test

open CString Libc Option
open List hiding le or and

abbrev Word := List UInt8

def word (s : String) : Word := chars s.toList

/-- What the file tests ask, by the letter of the operator. -/
inductive FileTest
  | b | c | d | e | f | r | s | w
deriving DecidableEq

def fileTests : List (Word × FileTest) :=
  [(word "-b", .b), (word "-c", .c), (word "-d", .d), (word "-e", .e), (word "-f", .f), (word "-r", .r),
    (word "-s", .s), (word "-w", .w)]

def comparisons : List (Word × (Int → Int → Bool)) :=
  [(word "-eq", fun m n => m == n), (word "-ge", fun m n => n ≤ m), (word "-gt", fun m n => n < m),
    (word "-le", fun m n => m ≤ n), (word "-lt", fun m n => m < n), (word "-ne", fun m n => m != n)]

structure Setting where
  target : Target
  files : FileTest → Word → Bool

variable (σ : Setting)

/-- An argument that `strtol` reads to its end, and its value. -/
def Setting.integer (s : Word) : Option Int :=
  if s = [] ∨ numberEnd s ≠ [] then none else some (strtol σ.target s)

def unaryexpression (op arg : Word) : Option Bool :=
  if op = word "-n" then some (arg.length != 0)
  else if op = word "-z" then some (arg.length == 0)
  else (fileTests.lookup op).map fun k => σ.files k arg

def binaryexpression (a op b : Word) : Option Bool :=
  if op = word "=" ∨ op = word "==" then some (a == b)
  else if op = word "!=" then some (a != b)
  else do
    let m ← σ.integer a
    let n ← σ.integer b
    (comparisons.lookup op).map fun cmp => cmp m n

/-- The simple expression that `expression` finds at the start of a vector, and what is behind it. -/
def simpleexpression : List Word → Option (Bool × List Word)
  | [] => none
  | a :: argv =>
    match argv with
    | [] => none
    | x :: rest =>
      match if a.head? = some 45 then unaryexpression σ a x else none with
      | some value => some (value, rest)
      | none =>
        match rest with
        | [] => none
        | b :: rest => (binaryexpression σ a x b).map fun value => (value, rest)

/-- `expression`, with as many calls as there are arguments; `none` where it looks at `argv[argc]`. -/
def expressionAux : Nat → List Word → Option Bool
  | 0, _ => none
  | _ + 1, [] => none
  | fuel + 1, a :: argv =>
    if a = word "!" then
      if argv = [] then some false else (expressionAux fuel argv).map (!·)
    else
      match simpleexpression σ (a :: argv) with
      | none => some false
      | some (value, []) => some value
      | some (value, c :: rest) =>
        if c = word "-a" then if value then expressionAux fuel rest else some false
        else if c = word "-o" then if value then some true else expressionAux fuel rest
        else some false

def expression (argv : List Word) : Option Bool := expressionAux σ argv.length argv

def cmdTest (args : List Word) : Option Bool := expression σ args

def cmdLbracket (args : List Word) : Option Bool :=
  if args.getLast? = some (word "]") then expression σ args.dropLast else some false

inductive Simple : List Word → Bool → Prop
  | nonempty (s : Word) : Simple [word "-n", s] (s.length != 0)
  | empty (s : Word) : Simple [word "-z", s] (s.length == 0)
  | file {op : Word} {k : FileTest} (h : (op, k) ∈ fileTests) (s : Word) : Simple [op, s] (σ.files k s)
  | same {op : Word} (h : op = word "=" ∨ op = word "==") (a b : Word) : Simple [a, op, b] (a == b)
  | differ (a b : Word) : Simple [a, word "!=", b] (a != b)
  | numeric {op a b : Word} {m n : Int} {cmp : Int → Int → Bool} (h : (op, cmp) ∈ comparisons)
      (ha : σ.integer a = some m) (hb : σ.integer b = some n) : Simple [a, op, b] (cmp m n)

inductive Derives : List Word → Bool → Prop
  | simple {ws : List Word} {v : Bool} : Simple σ ws v → Derives ws v
  | not {ws : List Word} {v : Bool} : Derives ws v → Derives (word "!" :: ws) (!v)
  | and {ws ws' : List Word} {v v' : Bool} : Simple σ ws v → Derives ws' v' →
      Derives (ws ++ word "-a" :: ws') (v && v')
  | or {ws ws' : List Word} {v v' : Bool} : Simple σ ws v → Derives ws' v' →
      Derives (ws ++ word "-o" :: ws') (v || v')

variable {σ} {op arg : Word} {v : Bool} {β : Type} {l : List (Word × β)}

theorem mem_keys {a : Word} {b : β} (h : (a, b) ∈ l) : a ∈ l.map Prod.fst :=
  mem_map.mpr ⟨(a, b), h, rfl⟩

theorem lookup_eq_some_iff_mem (hl : (l.map Prod.fst).Nodup) {a : Word} {b : β} : l.lookup a = some b ↔ (a, b) ∈ l := by
  induction l with
  | nil => simp
  | cons p l ih =>
    rw [map_cons, nodup_cons] at hl
    by_cases hp : a = p.1
    · subst hp
      have hnot : (p.1, b) ∉ l := fun hmem => hl.1 (mem_keys hmem)
      have hself : (p.1 == p.1) = true := by simp
      rw [List.lookup_cons, hself, mem_cons, Prod.ext_iff]
      simp [hnot, eq_comm]
    · have hne : (a == p.1) = false := by simpa using hp
      rw [List.lookup_cons, hne, mem_cons, Prod.ext_iff]
      simp [hp, ih hl.2]

theorem lookup_fileTests {op : Word} {k : FileTest} : fileTests.lookup op = some k ↔ (op, k) ∈ fileTests :=
  lookup_eq_some_iff_mem (by decide)

theorem lookup_comparisons {op : Word} {cmp : Int → Int → Bool} :
    comparisons.lookup op = some cmp ↔ (op, cmp) ∈ comparisons :=
  lookup_eq_some_iff_mem (by decide)

def unaryOps : List Word := word "-n" :: word "-z" :: fileTests.map Prod.fst

def binaryOps : List Word := word "=" :: word "==" :: word "!=" :: comparisons.map Prod.fst

theorem mem_unaryOps (h : unaryexpression σ op arg = some v) : op ∈ unaryOps := by
  rw [unaryexpression] at h
  split at h
  · simp [unaryOps, *]
  · split at h
    · simp [unaryOps, *]
    · obtain ⟨k, hk, -⟩ := map_eq_some_iff.mp h
      exact .tail _ (.tail _ (mem_keys (lookup_fileTests.mp hk)))

theorem mem_binaryOps {a op b : Word} {v : Bool} (h : binaryexpression σ a op b = some v) : op ∈ binaryOps := by
  rw [binaryexpression] at h
  split at h
  · rename_i hop
    rcases hop with rfl | rfl <;> simp [binaryOps]
  · split at h
    · simp [binaryOps, *]
    · simp only [bind_eq_bind, bind_eq_some_iff, map_eq_some_iff] at h
      obtain ⟨m, -, n, -, cmp, hcmp, -⟩ := h
      exact .tail _ (.tail _ (.tail _ (mem_keys (lookup_comparisons.mp hcmp))))

theorem simple_two_iff : Simple σ [op, arg] v ↔ unaryexpression σ op arg = some v := by
  constructor
  · intro h
    cases h with
    | nonempty => rfl
    | empty => rfl
    | file h =>
      have hn : op ≠ word "-n" := by
        rintro rfl
        exact absurd (mem_keys h) (by decide)
      have hz : op ≠ word "-z" := by
        rintro rfl
        exact absurd (mem_keys h) (by decide)
      rw [unaryexpression, if_neg hn, if_neg hz, lookup_fileTests.mpr h, map_some]
  · intro h
    rw [unaryexpression] at h
    split at h
    · rename_i hop
      subst hop
      cases h
      exact .nonempty arg
    · split at h
      · rename_i hop
        subst hop
        cases h
        exact .empty arg
      · obtain ⟨k, hk, rfl⟩ := map_eq_some_iff.mp h
        exact .file (lookup_fileTests.mp hk) arg

theorem simple_three_iff {a op b : Word} {v : Bool} : Simple σ [a, op, b] v ↔ binaryexpression σ a op b = some v := by
  constructor
  · intro h
    cases h with
    | same h => rw [binaryexpression, if_pos h]
    | differ => rfl
    | numeric h ha hb =>
      have hsame : ¬ (op = word "=" ∨ op = word "==") := by
        rintro (rfl | rfl) <;> exact absurd (mem_keys h) (by decide)
      have hdiffer : op ≠ word "!=" := by
        rintro rfl
        exact absurd (mem_keys h) (by decide)
      rw [binaryexpression, if_neg hsame, if_neg hdiffer, ha, hb]
      simp [lookup_comparisons.mpr h]
  · intro h
    rw [binaryexpression] at h
    split at h
    · rename_i hop
      cases h
      exact .same hop a b
    · split at h
      · rename_i hop
        subst hop
        cases h
        exact .differ a b
      · simp only [bind_eq_bind, bind_eq_some_iff, map_eq_some_iff] at h
        obtain ⟨m, hm, n, hn, cmp, hcmp, rfl⟩ := h
        exact .numeric (lookup_comparisons.mp hcmp) hm hn

/-- What may follow a simple expression of value `v`, and the value of it all. -/
inductive Tail (σ : Setting) (v : Bool) : List Word → Bool → Prop
  | nil : Tail σ v [] v
  | and {ws : List Word} {v' : Bool} : Derives σ ws v' → Tail σ v (word "-a" :: ws) (v && v')
  | or {ws : List Word} {v' : Bool} : Derives σ ws v' → Tail σ v (word "-o" :: ws) (v || v')

variable {ws : List Word} {v w : Bool}

theorem Derives.start (h : Derives σ ws w) :
    (∃ ws' v, ws = word "!" :: ws' ∧ Derives σ ws' v ∧ w = !v) ∨
      (∃ op arg rest v, ws = op :: arg :: rest ∧ unaryexpression σ op arg = some v ∧ Tail σ v rest w) ∨
      (∃ a op b rest v, ws = a :: op :: b :: rest ∧ binaryexpression σ a op b = some v ∧ Tail σ v rest w) := by
  have key : ∀ {ws₁ rest : List Word} {v : Bool}, Simple σ ws₁ v → Tail σ v rest w →
      (∃ op arg rest' v, ws₁ ++ rest = op :: arg :: rest' ∧ unaryexpression σ op arg = some v ∧ Tail σ v rest' w) ∨
      (∃ a op b rest' v, ws₁ ++ rest = a :: op :: b :: rest' ∧ binaryexpression σ a op b = some v ∧
        Tail σ v rest' w) := by
    intro ws₁ rest v hs ht
    have hshape := hs
    cases hshape with
    | nonempty | empty | file => exact .inl ⟨_, _, _, _, rfl, simple_two_iff.mp hs, ht⟩
    | same | differ | numeric => exact .inr ⟨_, _, _, _, _, rfl, simple_three_iff.mp hs, ht⟩
  cases h with
  | simple hs => exact .inr (by simpa using key hs .nil)
  | not h => exact .inl ⟨_, _, rfl, h, rfl⟩
  | and hs h => exact .inr (key hs (.and h))
  | or hs h => exact .inr (key hs (.or h))

theorem not_derives_nil : ¬ Derives σ [] w := fun h => by
  rcases h.start with ⟨_, _, h, -⟩ | ⟨_, _, _, _, h, -⟩ | ⟨_, _, _, _, _, h, -⟩ <;> cases h

theorem Derives.binary {x : Word} (h : Derives σ (x :: ws) w) (hbang : x ≠ word "!") (hunary : x ∉ unaryOps) :
    ∃ op b rest v, ws = op :: b :: rest ∧ binaryexpression σ x op b = some v ∧ Tail σ v rest w := by
  rcases h.start with ⟨_, _, h, -⟩ | ⟨_, _, _, _, h, hop, -⟩ | ⟨_, op, b, rest, v, h, hv, ht⟩
  · exact absurd (List.cons.inj h).1 hbang
  · cases h
    exact absurd (mem_unaryOps hop) hunary
  · cases h
    exact ⟨op, b, rest, v, rfl, hv, ht⟩

theorem Tail.cons {c : Word} (h : Tail σ v (c :: ws) w) : (c = word "-a" ∨ c = word "-o") ∧ ∃ v', Derives σ ws v' := by
  cases h with
  | and h => exact ⟨.inl rfl, _, h⟩
  | or h => exact ⟨.inr rfl, _, h⟩

theorem connective_ne {c : Word} (h : c = word "-a" ∨ c = word "-o") : c ≠ word "!" ∧ c ∉ unaryOps := by
  rcases h with rfl | rfl <;> decide

theorem binaryOps_ne {op : Word} (h : op ∈ binaryOps) : op ≠ word "!" ∧ op ∉ unaryOps := by
  have table : ∀ op ∈ binaryOps, op ≠ word "!" ∧ op ∉ unaryOps := by decide
  exact table op h

theorem not_derives_connective {c : Word} (hc : c = word "-a" ∨ c = word "-o") (h : Derives σ (c :: ws) v)
    (h' : Derives σ ws w) : False := by
  induction hlen : ws.length using Nat.strongRecOn generalizing c ws v w with
  | ind n ih =>
    obtain ⟨op, b, rest, _, rfl, hop, ht⟩ := h.binary (connective_ne hc).1 (connective_ne hc).2
    have hne := binaryOps_ne (mem_binaryOps hop)
    obtain ⟨op', b', rest', _, hws, -, ht'⟩ := h'.binary hne.1 hne.2
    cases hws
    obtain ⟨-, v₁, h₁⟩ := ht.cons
    cases rest' with
    | nil => exact not_derives_nil h₁
    | cons c' ws' =>
      obtain ⟨hc', v₂, h₂⟩ := ht'.cons
      exact ih ws'.length (by simp [← hlen]; omega) hc' h₁ h₂ rfl

theorem Tail.not_derives (ht : Tail σ v ws w) {v' : Bool} (h : Derives σ ws v') : False := by
  cases ws with
  | nil => exact not_derives_nil h
  | cons c ws =>
    obtain ⟨hc, _, h'⟩ := ht.cons
    exact not_derives_connective hc h h'

theorem not_derives_bang {op b : Word} (hop : op ∈ binaryOps) (ht : Tail σ v ws w) {v' : Bool}
    (h : Derives σ (op :: b :: ws) v') : False := by
  have hne := binaryOps_ne hop
  obtain ⟨_, _, _, _, hws, -, ht'⟩ := h.binary hne.1 hne.2
  cases hws
  obtain ⟨-, _, h₁⟩ := ht.cons
  exact ht'.not_derives h₁

theorem Derives.unique (h : Derives σ ws v) (h' : Derives σ ws w) : v = w := by
  induction hlen : ws.length using Nat.strongRecOn generalizing ws v w with
  | ind n ih =>
    have shorter : ∀ {ws' : List Word} {x y : Bool}, ws'.length < n → Derives σ ws' x → Derives σ ws' y → x = y :=
      fun hlt hx hy => ih _ hlt hx hy rfl
    have tail : ∀ {x : Bool} {rest : List Word}, rest.length < n → Tail σ x rest v → Tail σ x rest w → v = w := by
      intro x rest hlt ht ht'
      cases ht with
      | nil =>
        cases ht'
        rfl
      | and hd =>
        cases ht' with
        | and hd' => rw [shorter (Nat.lt_of_succ_lt hlt) hd hd']
      | or hd =>
        cases ht' with
        | or hd' => rw [shorter (Nat.lt_of_succ_lt hlt) hd hd']
    -- a vector that starts in two ways has a connective where one of them expects an expression
    rcases h.start with ⟨_, _, rfl, hd, rfl⟩ | ⟨op, arg, rest, _, rfl, hop, ht⟩ | ⟨a, op, b, rest, _, rfl, hop, ht⟩
    · rcases h'.start with ⟨_, _, hws, hd', rfl⟩ | ⟨_, _, _, _, hws, hop', -⟩ | ⟨_, _, _, _, _, hws, hop', ht'⟩
      · cases hws
        rw [shorter (by simp at hlen; omega) hd hd']
      · cases hws
        exact absurd (mem_unaryOps hop') (by decide)
      · cases hws
        exact (not_derives_bang (mem_binaryOps hop') ht' hd).elim
    · rcases h'.start with ⟨_, _, hws, -⟩ | ⟨_, _, _, _, hws, hop', ht'⟩ | ⟨_, _, _, _, _, hws, -, ht'⟩
      · cases hws
        exact absurd (mem_unaryOps hop) (by decide)
      · cases hws
        cases hop.symm.trans hop'
        exact tail (by simp at hlen; omega) ht ht'
      · cases hws
        obtain ⟨-, _, hd⟩ := ht.cons
        exact (ht'.not_derives hd).elim
    · rcases h'.start with ⟨_, _, hws, hd', -⟩ | ⟨_, _, _, _, hws, -, ht'⟩ | ⟨_, _, _, _, _, hws, hop', ht'⟩
      · cases hws
        exact (not_derives_bang (mem_binaryOps hop) ht hd').elim
      · cases hws
        obtain ⟨-, _, hd'⟩ := ht'.cons
        exact (ht.not_derives hd').elim
      · cases hws
        cases hop.symm.trans hop'
        exact tail (by simp at hlen; omega) ht ht'

/-! ## How far `expression` reads -/

/-- On its way `expression` comes to the words `s`, behind an odd number of `!` if `flip`. -/
inductive Reach (σ : Setting) : List Word → Bool → List Word → Prop
  | refl (ws : List Word) : Reach σ ws false ws
  | not {ws s : List Word} {flip : Bool} (hne : ws ≠ []) : Reach σ ws flip s → Reach σ (word "!" :: ws) (!flip) s
  | and {a : Word} {ws rest s : List Word} {flip : Bool} (ha : a ≠ word "!")
      (hs : simpleexpression σ (a :: ws) = some (true, word "-a" :: rest)) : Reach σ rest flip s →
      Reach σ (a :: ws) flip s
  | or {a : Word} {ws rest s : List Word} {flip : Bool} (ha : a ≠ word "!")
      (hs : simpleexpression σ (a :: ws) = some (false, word "-o" :: rest)) : Reach σ rest flip s →
      Reach σ (a :: ws) flip s

/-- The words are one simple expression. -/
inductive Ends (σ : Setting) : List Word → Bool → Prop
  | intro {a : Word} {ws : List Word} {v : Bool} (ha : a ≠ word "!")
      (hs : simpleexpression σ (a :: ws) = some (v, [])) : Ends σ (a :: ws) v

/-- A false operand of `-a`, or a true one of `-o`, in front of the words `rest`. -/
inductive Decides (σ : Setting) : List Word → Bool → List Word → Prop
  | and {a : Word} {ws rest : List Word} (ha : a ≠ word "!")
      (hs : simpleexpression σ (a :: ws) = some (false, word "-a" :: rest)) : Decides σ (a :: ws) false rest
  | or {a : Word} {ws rest : List Word} (ha : a ≠ word "!")
      (hs : simpleexpression σ (a :: ws) = some (true, word "-o" :: rest)) : Decides σ (a :: ws) true rest

/-- No simple expression, or one with another word than a connective behind it. -/
inductive Fault (σ : Setting) : List Word → Prop
  | bang : Fault σ [word "!"]
  | error {a : Word} {ws : List Word} (ha : a ≠ word "!") (hs : simpleexpression σ (a :: ws) = none) : Fault σ (a :: ws)
  | other {a c : Word} {ws rest : List Word} {v : Bool} (ha : a ≠ word "!")
      (hs : simpleexpression σ (a :: ws) = some (v, c :: rest)) (hc : c ≠ word "-a") (hc' : c ≠ word "-o") :
      Fault σ (a :: ws)

/-- A syntax error, which counts as false, or a connective that decides in front of words that are no expression. -/
inductive Stops (σ : Setting) : List Word → Bool → Prop
  | fault {s : List Word} : Fault σ s → Stops σ s false
  | decides {s rest : List Word} {v : Bool} : Decides σ s v rest → (∀ w, ¬ Derives σ rest w) → Stops σ s v

/-- The words start with `!` or a unary operator, which the grammar takes for a string. -/
inductive AsString (σ : Setting) : List Word → Bool → Prop
  | intro {a op b : Word} {rest : List Word} {v w : Bool} (ha : a = word "!" ∨ a ∈ unaryOps)
      (hop : binaryexpression σ a op b = some v) (ht : Tail σ v rest w) : AsString σ (a :: op :: b :: rest) w

/-- Of the words that `expression` comes to some are an expression, where the first one is a string. -/
def Otherwise (σ : Setting) (args : List Word) (w : Bool) : Prop :=
  ∃ flip s, Reach σ args flip s ∧ AsString σ s (w ^^ flip)

theorem simple_of_simpleexpression {rest : List Word} (h : simpleexpression σ ws = some (v, rest)) :
    ∃ ws₁, ws = ws₁ ++ rest ∧ Simple σ ws₁ v := by
  rw [simpleexpression.eq_def] at h
  split at h
  · cases h
  · rename_i a argv
    split at h
    · cases h
    · rename_i x rest'
      split at h
      · rename_i value hu
        cases h
        have hu' : unaryexpression σ a x = some v := by
          split at hu
          · exact hu
          · cases hu
        exact ⟨[a, x], rfl, simple_two_iff.mpr hu'⟩
      · split at h
        · cases h
        · rename_i b rest''
          obtain ⟨value, hb, hr⟩ := map_eq_some_iff.mp h
          cases hr
          exact ⟨[a, x, b], rfl, simple_three_iff.mpr hb⟩

theorem simpleexpression_length {rest : List Word} (h : simpleexpression σ ws = some (v, rest)) :
    rest.length < ws.length := by
  obtain ⟨ws₁, rfl, hs⟩ := simple_of_simpleexpression h
  cases hs <;> simp <;> omega

theorem expressionAux_eq {fuel : Nat} (h : ws.length ≤ fuel) : expressionAux σ fuel ws = expression σ ws := by
  have succ : ∀ (fuel : Nat) (ws : List Word), ws.length ≤ fuel →
      expressionAux σ (fuel + 1) ws = expressionAux σ fuel ws := by
    intro fuel
    induction fuel with
    | zero =>
      intro ws hws
      rw [length_eq_zero_iff.mp (Nat.le_zero.mp hws)]
      rfl
    | succ fuel ih =>
      intro ws hws
      cases ws with
      | nil => rfl
      | cons a argv =>
        have hargv : argv.length ≤ fuel := Nat.le_of_succ_le_succ hws
        conv_lhs => rw [expressionAux, ih argv hargv]
        conv_rhs => rw [expressionAux]
        cases hs : simpleexpression σ (a :: argv) with
        | none => rfl
        | some p =>
          obtain ⟨value, rest⟩ := p
          cases rest with
          | nil => rfl
          | cons c rest =>
            have hlen := simpleexpression_length hs
            simp only [ih rest (by simp at hlen hws; omega)]
  induction fuel, h using Nat.le_induction with
  | base => rfl
  | succ fuel hle ih => rw [succ fuel ws hle, ih]

/-! One equation for each step. -/

section Step

variable {a c : Word} {argv rest : List Word} (ha : a ≠ word "!")

theorem expression_bang (hne : argv ≠ []) : expression σ (word "!" :: argv) = (expression σ argv).map (!·) := by
  rw [expression, length_cons, expressionAux, if_pos rfl, if_neg hne, expressionAux_eq le_rfl]

include ha

theorem expression_error (hs : simpleexpression σ (a :: argv) = none) : expression σ (a :: argv) = some false := by
  rw [expression, length_cons, expressionAux, if_neg ha, hs]

theorem expression_last (hs : simpleexpression σ (a :: argv) = some (v, [])) : expression σ (a :: argv) = some v := by
  rw [expression, length_cons, expressionAux, if_neg ha, hs]

theorem expression_more (hs : simpleexpression σ (a :: argv) = some (v, c :: rest)) :
    expression σ (a :: argv) =
      if c = word "-a" then if v then expression σ rest else some false
      else if c = word "-o" then if v then some true else expression σ rest
      else some false := by
  have hlen := simpleexpression_length hs
  simp only [expression, length_cons, expressionAux, if_neg ha, hs]
  rw [expressionAux_eq (by simp at hlen; omega), expression]

theorem expression_and (hs : simpleexpression σ (a :: argv) = some (v, word "-a" :: rest)) :
    expression σ (a :: argv) = if v then expression σ rest else some false :=
  expression_more ha hs

theorem expression_or (hs : simpleexpression σ (a :: argv) = some (v, word "-o" :: rest)) :
    expression σ (a :: argv) = if v then some true else expression σ rest :=
  expression_more ha hs

theorem expression_other (hs : simpleexpression σ (a :: argv) = some (v, c :: rest)) (hc : c ≠ word "-a")
    (hc' : c ≠ word "-o") : expression σ (a :: argv) = some false := by
  rw [expression_more ha hs, if_neg hc, if_neg hc']

end Step

section Reach

variable {flip : Bool} {s : List Word}

theorem Reach.expression (h : Reach σ ws flip s) : expression σ ws = (expression σ s).map (· ^^ flip) := by
  induction h with
  | refl ws => simp
  | @not ws s flip hne h ih =>
    rw [expression_bang hne, ih, Option.map_map]
    congr 1
    funext v
    cases v <;> cases flip <;> rfl
  | and ha hsimple _ ih => rw [expression_and ha hsimple, if_pos rfl, ih]
  | or ha hsimple _ ih => rw [expression_or ha hsimple, if_neg (by simp), ih]

theorem Tail.derives {ws₁ rest : List Word} (h : Simple σ ws₁ v) (ht : Tail σ v rest w) :
    Derives σ (ws₁ ++ rest) w := by
  cases ht with
  | nil =>
    rw [append_nil]
    exact .simple h
  | and hd => exact .and h hd
  | or hd => exact .or h hd

theorem Tail.derives_of_simpleexpression {rest : List Word} (h : simpleexpression σ ws = some (v, rest))
    (ht : Tail σ v rest w) : Derives σ ws w := by
  obtain ⟨ws₁, rfl, hs⟩ := simple_of_simpleexpression h
  exact ht.derives hs

theorem Reach.derives (h : Reach σ ws flip s) (hd : Derives σ s w) : Derives σ ws (w ^^ flip) := by
  induction h with
  | refl => rwa [Bool.xor_false]
  | not _ _ ih =>
    rw [Bool.xor_not]
    exact .not (ih hd)
  | and _ hs _ ih => exact Tail.derives_of_simpleexpression hs (.and (ih hd))
  | or _ hs _ ih => exact Tail.derives_of_simpleexpression hs (.or (ih hd))

theorem Ends.derives (h : Ends σ s v) : Derives σ s v := by
  obtain ⟨-, hs⟩ := h
  exact Tail.derives_of_simpleexpression hs .nil

theorem Decides.derives {rest : List Word} (h : Decides σ s v rest) (hd : Derives σ rest w) : Derives σ s v := by
  cases h with
  | and _ hs => exact Tail.derives_of_simpleexpression hs (.and hd)
  | or _ hs => exact Tail.derives_of_simpleexpression hs (.or hd)

theorem AsString.derives (h : AsString σ s w) : Derives σ s w := by
  obtain ⟨-, hop, ht⟩ := h
  exact ht.derives (simple_three_iff.mpr hop)

theorem Otherwise.derives (h : Otherwise σ ws w) : Derives σ ws w := by
  obtain ⟨flip, s, hreach, hs⟩ := h
  simpa using hreach.derives hs.derives

theorem head_unaryOps {op : Word} (h : op ∈ unaryOps) : op.head? = some 45 := by
  have table : ∀ op ∈ unaryOps, op.head? = some 45 := by decide
  exact table op h

/-- What `expression` finds at the start is what the grammar finds there, unless the first word is a string for the
grammar. -/
theorem Derives.simpleexpression {a : Word} (ha : a ≠ word "!") (h : Derives σ (a :: ws) w) :
    (∃ v rest, simpleexpression σ (a :: ws) = some (v, rest) ∧ Tail σ v rest w) ∨
      (∃ p, Test.simpleexpression σ (a :: ws) = some p) ∧ AsString σ (a :: ws) w := by
  rcases h.start with ⟨_, _, hws, -⟩ | ⟨op, arg, rest, v, hws, hop, ht⟩ | ⟨_, op, b, rest, v, hws, hop, ht⟩
  · exact absurd (List.cons.inj hws).1 ha
  · cases hws
    refine .inl ⟨v, rest, ?_, ht⟩
    simp [Test.simpleexpression, head_unaryOps (mem_unaryOps hop), hop]
  · cases hws
    cases hunary : (if a.head? = some 45 then unaryexpression σ a op else none) with
    | none => exact .inl ⟨v, rest, by simp [Test.simpleexpression, hunary, hop], ht⟩
    | some value =>
      have hmem : a ∈ unaryOps := by
        split at hunary
        · exact mem_unaryOps hunary
        · cases hunary
      exact .inr ⟨⟨(value, b :: rest), by simp only [Test.simpleexpression, hunary]⟩, .intro (.inr hmem) hop ht⟩

theorem Derives.tail {a : Word} {rest : List Word} (ha : a ≠ word "!")
    (hs : Test.simpleexpression σ (a :: ws) = some (v, rest)) (h : Derives σ (a :: ws) w) :
    Tail σ v rest w ∨ AsString σ (a :: ws) w := by
  rcases h.simpleexpression ha with ⟨v', rest', hs', ht⟩ | ⟨-, has⟩
  · obtain ⟨rfl, rfl⟩ := Prod.mk.inj (some.inj (hs.symm.trans hs'))
    exact .inl ht
  · exact .inr has

/-- An expression of the grammar is one behind the words that `expression` passes, or starts otherwise. -/
theorem Derives.reach (h : Reach σ ws flip s) (hd : Derives σ ws w) : Derives σ s (w ^^ flip) ∨ Otherwise σ ws w := by
  induction h generalizing w with
  | refl ws => exact .inl (by rwa [Bool.xor_false])
  | @not ws s flip hne h ih =>
    rcases hd.start with ⟨_, v, hws, hd', rfl⟩ | ⟨_, _, _, _, hws, hop, -⟩ | ⟨_, _, _, _, _, hws, hop, ht⟩
    · cases hws
      refine (ih hd').imp (fun h => by simpa using h) ?_
      rintro ⟨flip', s', hreach, has⟩
      exact ⟨!flip', s', .not hne hreach, by simpa using has⟩
    · cases hws
      exact absurd (mem_unaryOps hop) (by decide)
    · cases hws
      exact .inr ⟨false, _, .refl _, by rw [Bool.xor_false]; exact .intro (.inl rfl) hop ht⟩
  | and ha hs h ih =>
    rcases hd.tail ha hs with ht | has
    · cases ht with
      | and hd' =>
        refine (ih hd').imp_right ?_
        rintro ⟨flip', s', hreach, has⟩
        exact ⟨flip', s', .and ha hs hreach, has⟩
    · exact .inr ⟨false, _, .refl _, by rwa [Bool.xor_false]⟩
  | or ha hs h ih =>
    rcases hd.tail ha hs with ht | has
    · cases ht with
      | or hd' =>
        refine (ih hd').imp_right ?_
        rintro ⟨flip', s', hreach, has⟩
        exact ⟨flip', s', .or ha hs hreach, has⟩
    · exact .inr ⟨false, _, .refl _, by rwa [Bool.xor_false]⟩

theorem Ends.expression (h : Ends σ s v) : Test.expression σ s = some v := by
  obtain ⟨ha, hs⟩ := h
  exact expression_last ha hs

theorem Decides.expression {rest : List Word} (h : Decides σ s v rest) : Test.expression σ s = some v := by
  cases h with
  | and ha hs => rw [expression_and ha hs, if_neg (by simp)]
  | or ha hs => rw [expression_or ha hs, if_pos rfl]

theorem Stops.expression (h : Stops σ s v) : Test.expression σ s = some v := by
  cases h with
  | fault h =>
    cases h with
    | bang => rfl
    | error ha hs => exact expression_error ha hs
    | other ha hs hc hc' => exact expression_other ha hs hc hc'
  | decides h _ => exact h.expression

end Reach

def Exact (σ : Setting) (args : List Word) : Prop :=
  cmdTest σ args ≠ none ∧ (cmdTest σ args = some true ↔ Derives σ args true)

end NuttxApps.Nsh.Test
