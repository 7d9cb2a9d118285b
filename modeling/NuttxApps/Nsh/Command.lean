import NuttxApps.Framework.Libc
import NuttxApps.Nsh.Keywords
import NuttxApps.Nsh.Line

/-!
# What a command executes

`nsh_parse_command` expands the words of a command, takes the keywords off, and collects the rest in `argv`. It looks
for redirections, pipelines and `&` in the words without their quotation marks, so quoting does not keep operators from
meaning something (`quoted_iff`). Failing allocations and pipes, and the length of the line for `sh`, are left out.
-/

namespace NuttxApps.Nsh

open CString Libc List

def argSeparator : List Char := [backQuote, '$']

def nshDequote : Bool → List Char → List Char
  | _, [] => []
  | quoted, c :: s => if c = '\\' ∧ quoted = false then nshDequote true s else c :: nshDequote false s

/-- The text in front of the next character of `g_arg_separator` that no back-slash quotes, and the text from it on. -/
def findSpecial : Nat → List Char → List Char → List Char × List Char
  | 0, front, s => (front, s)
  | fuel + 1, front, s =>
    let front := front ++ s.takeWhile (· ∉ argSeparator)
    match s.dropWhile (· ∉ argSeparator) with
    | [] => (front, [])
    | c :: rest =>
      if (front.reverse.takeWhile (· = '\\')).length % 2 = 1 then findSpecial fuel (front ++ [c]) rest
      else (front, c :: rest)

section Expand

-- `nsh_envexpand` and `nsh_cmdparm`: the value of a variable, and what a command in back-quotes prints
variable (envexpand cmdparm : List Char → List Char)

/-- The loop of `nsh_argexpand`: the text, and whether a variable was expanded in it. -/
def argexpandLoop : Nat → List Char → Bool → List Char → List Char × Bool
  | 0, argument, isenvvar, _ => (argument, isenvvar)
  | fuel + 1, argument, isenvvar, working =>
    match findSpecial (working.length + 1) [] working with
    | (_, []) => (nshDequote false (argument ++ working), isenvvar)
    | (front, c :: s) =>
      let argument := argument ++ front
      if c = backQuote then
        match nshStrchr backQuote false s with
        | none => ([], isenvvar)
        | some k => argexpandLoop fuel (argument ++ cmdparm (s.take k)) isenvvar (s.drop (k + 1))
      else if s.head? = some '\x7b' then
        match nshStrchr '\x7d' false s.tail with
        | none => ([], isenvvar)
        | some k => argexpandLoop fuel (argument ++ envexpand (s.tail.take k)) true (s.tail.drop (k + 1))
      else argexpandLoop fuel (argument ++ envexpand s) true []

/-- The end of `nsh_argument`: a word with its expansion, and whether it is to be split at its separators. -/
def nshArgexpand (a : Arg) : List Char × Bool :=
  if a.squote then (a.text, false)
  else
    let r := argexpandLoop envexpand cmdparm (a.text.length + 1) [] false a.text
    (r.1, r.2 && !a.dquote)

end Expand

/-- `struct nsh_param_s`: files that input and output are redirected to, whether the latter is appended to, and whether
there is a pipe. -/
structure Param where
  fileIn : Option (List Char)
  fileOut : Option (List Char × Bool)
  (fdIn fdOut : Bool)
deriving DecidableEq

/-- A call of `nsh_execute`, with the flags of the parser that it looks at. -/
structure Execution where
  argv : List (List Char)
  (bg redirIn redirOut : Bool)
  param : Param
deriving DecidableEq

structure Args where
  argv : List (List Char)
  (redirIn redirOut redirectInSave redirectOutSave : Bool)
  param : Param
  executed : List Execution

def Args.start (cmd : List Char) : Args := ⟨[cmd], false, false, false, false, ⟨none, none, false, false⟩, []⟩

/-- `g_redirect_out2`, `g_redirect_out1`, `g_redirect_in1` and `g_pipeline1`. -/
inductive Operator
  | out2
  | out1
  | in1
  | pipeline
deriving DecidableEq

def operator : List Char → Option (Operator × List Char)
  | '>' :: '>' :: s => some (.out2, s)
  | '>' :: s => some (.out1, s)
  | '<' :: s => some (.in1, s)
  | '|' :: s => some (.pipeline, s)
  | _ => none

def shArg (argv : List (List Char)) : List Char := [' '].intercalate argv

/-- `CONFIG_NSH_MAXARGUMENTS` and `CONFIG_NSH_NESTDEPTH`, the expansions, and whether `nsh_execute` returns -1. -/
structure Setup where
  (maxarguments nestdepth : Nat)
  target : Target
  (envexpand cmdparm : List Char → List Char)
  refuses : Execution → Bool

variable (S : Setup)

def Setup.maxArgvEntries : Nat := S.maxarguments + 5

def Setup.expand (a : Arg) : List Char × Bool := nshArgexpand S.envexpand S.cmdparm a

/-- An operator with its file or command, and whether the loop goes on. -/
def Args.apply (st : Args) (arg : List Char) : Operator → Args × Bool
  | .out2 =>
    ({ st with redirectOutSave := st.redirOut, redirOut := true, param.fileOut := some (arg, true) }, true)
  | .out1 =>
    ({ st with redirectOutSave := st.redirOut, redirOut := true, param.fileOut := some (arg, false) }, true)
  | .in1 => ({ st with redirectInSave := st.redirIn, redirIn := true, param.fileIn := some arg }, true)
  | .pipeline =>
    let e : Execution :=
      ⟨["sh".toList, "-c".toList, shArg st.argv], true, st.redirIn, true, { st.param with fdOut := true }⟩
    let redirIn := if st.param.fdIn then st.redirectInSave else st.redirIn
    ({ argv := [arg]
       redirIn := true
       redirOut := st.redirOut
       redirectInSave := redirIn
       redirectOutSave := st.redirOut
       param := { st.param with fdIn := true, fdOut := false }
       executed := st.executed ++ [e] }, !S.refuses e)

def splitValue (S : Setup) : Nat → List (List Char) → List Char → List (List Char) × List Char
  | 0, argv, w => (argv, w)
  | fuel + 1, argv, w =>
    if argv.length < S.maxArgvEntries - 1 then
      match w.dropWhile (· ∉ tokenSeparator) with
      | [] => (argv, w)
      | _ :: rest =>
        splitValue S fuel (argv ++ [w.takeWhile (· ∉ tokenSeparator)]) (rest.dropWhile (· ∈ tokenSeparator))
    else (argv, w)

/-- All arguments are there: the command is executed, in the background if the last one is `&`. -/
def Args.finish (st : Args) : List Execution :=
  if 1 < st.argv.length ∧ st.argv.getLast? = some ['&'] then
    st.executed ++ [⟨st.argv.dropLast, true, st.redirIn, st.redirOut, st.param⟩]
  else st.executed ++ [⟨st.argv, false, st.redirIn, st.redirOut, st.param⟩]

/-- The loop of `nsh_parse_command` over the words that are left. An operator that ends its word waits for the next one;
without it the command is not executed. -/
def collect (S : Setup) : Args → Option Operator → List Arg → List Execution
  | st, none, [] => st.finish
  | st, some _, [] => st.executed
  | st, some op, w :: ws =>
    let r := st.apply S (S.expand w).1 op
    if r.2 then collect S r.1 none ws else r.1.executed
  | st, none, w :: ws =>
    if st.argv.length < S.maxArgvEntries - 1 then
      let (argv, w) :=
        if (S.expand w).2 then splitValue S (S.expand w).1.length st.argv (S.expand w).1 else (st.argv, (S.expand w).1)
      let st := { st with argv }
      match operator w with
      | none => collect S { st with argv := argv ++ [w] } none ws
      | some (op, []) => collect S st (some op) ws
      | some (op, arg) =>
        let r := st.apply S arg op
        if r.2 then collect S r.1 none ws else r.1.executed
    else st.finish

/-- `nsh_nice`: the words of the command, if the option is a good one. -/
def nshNice (t : Target) : List String → Option (List String)
  | [] => some []
  | cmd :: ws =>
    if cmd = "nice" then
      match ws with
      | opt :: val :: rest =>
        if opt = "-d" then
          let s := chars val.toList
          if strtol t s > 19 ∨ strtol t s < -20 ∨ numberEnd s = s ∨ numberEnd s ≠ [] then none else some rest
        else some ws
      | _ => some ws
    else some (cmd :: ws)

def executions (np : Parser) (ws : List Arg) : List Execution :=
  match nshLoop S.nestdepth np (ws.map fun a => String.ofList (S.expand a).1) with
  | (_, .error _) => []
  | (np, .ok rest) =>
    match nshItef S.nestdepth np rest with
    | (_, .error _) => []
    | (np, .ok rest) =>
      match nshNice S.target rest with
      | none => []
      | some rest =>
        -- the keywords are gone: the command is at the end of the words
        match ws.drop (ws.length - rest.length) with
        | [] => []
        | cmd :: ws =>
          if nshCmdenabled np = false then []
          else collect S (.start (S.expand cmd).1) none ws

/-- A word without quotation marks, back-slashes, `$` and ends of lines. -/
def Literal (w : List Char) : Prop := ∀ c ∈ w, c ∉ ['\'', '"', '\\', '$', backQuote, '\n']

def quoteWord (w : List Char) : List Char := '"' :: (w ++ ['"'])

def quoteLine : List (List Char) → List Char
  | [] => []
  | [w] => quoteWord w
  | w :: ws => quoteWord w ++ ' ' :: quoteLine ws

def Arg.quoted (w : List Char) : Arg := ⟨w, false, true⟩

section Literal

variable {w rest : List Char}

theorem Literal.of_cons {c : Char} (h : Literal (c :: w)) : Literal w := fun d hd => h d (mem_cons_of_mem c hd)

theorem Literal.ne {c : Char} (h : Literal w) (hc : c ∈ w) : c ≠ '"' ∧ c ≠ '\\' ∧ c ∉ argSeparator := by
  have := h c hc
  simp only [mem_cons, not_mem_nil, or_false, not_or] at this
  simp [argSeparator, this]

theorem nshStrchr_literal (h : Literal w) (rest : List Char) :
    nshStrchr '"' false (w ++ '"' :: rest) = some w.length := by
  induction w with
  | nil => rfl
  | cons c w ih =>
    obtain ⟨hq, hb, -⟩ := h.ne (mem_cons_self)
    rw [cons_append, nshStrchr, if_neg (fun h => hb h.1), if_neg (fun h => hq h.1), ih h.of_cons]
    rfl

theorem quoteWord_append (w rest : List Char) : quoteWord w ++ rest = '"' :: (w ++ '"' :: rest) := by simp [quoteWord]

theorem Place.scan_quoteWord (h : Literal w) (rest : List Char) {prev : Option Char} (hp : prev ≠ some '\\')
    (working i : Nat) :
    ∃ j, (Place.text prev).scan working i (quoteWord w ++ rest) = (Place.text (some '"')).scan j j rest := by
  refine ⟨i + 1 + w.length + 1, ?_⟩
  have hn : (Place.text prev).scan working i ('"' :: (w ++ '"' :: rest)) =
      (Place.quote '"' false).scan working (i + 1) (w ++ '"' :: rest) := by
    simp [Place.scan, Place.next, hp]
  rw [quoteWord_append, hn, Place.scan_quote (by decide), nshStrchr_literal h]
  simp

theorem Mode.words_quoteWord (h : Literal w) :
    Mode.blank.words (quoteWord w ++ rest) = (Mode.word (.quoted w) false).words rest := by
  have hn : Mode.blank.step '"' = (.quote (Arg.quoted []) '"' false, none) := rfl
  rw [quoteWord_append, Mode.words_cons, hn]
  show (Mode.quote (Arg.quoted []) '"' false).words (w ++ '"' :: rest) = _
  rw [Mode.words_quote, nshStrchr_literal h]
  simp [Arg.quoted, show ('"' : Char) ≠ backQuote by decide]

theorem Mode.words_quoted_blank (h : Literal w) :
    (Mode.word (.quoted w) false).words (' ' :: rest) = .quoted w :: Mode.blank.words rest := by
  have hb : ¬ (w.getLast? = some '\\' ∧ false = false) := fun hl => (h.ne (mem_of_getLast? hl.1)).2.1 rfl
  have hs : (Mode.word (.quoted w) false).step ' ' = (.blank, some (.quoted w)) := (if_neg hb).trans rfl
  rw [Mode.words_cons, hs]
  rfl

end Literal

section

variable {ws : List (List Char)} (h : ∀ w ∈ ws, Literal w)

include h

theorem scan_quoteLine (prev : Option Char) (hp : prev ≠ some '\\')
    (working i : Nat) : ∃ w len, (Place.text prev).scan working i (quoteLine ws) = .found w len true := by
  fun_induction quoteLine ws generalizing prev working i with
  | case1 => exact ⟨working, i, rfl⟩
  | case2 w =>
    obtain ⟨j, hj⟩ := Place.scan_quoteWord (h w (by simp)) [] hp working i
    exact ⟨j, j, by rw [← append_nil (quoteWord w), hj]; rfl⟩
  | case3 w ws hws ih =>
    obtain ⟨j, hj⟩ := Place.scan_quoteWord (h w (by simp)) (' ' :: quoteLine ws) hp working i
    rw [hj]
    exact ih (fun v hv => h v (by simp [hv])) _ (by decide) j (j + 1)

theorem wordsOf_quoteLine : wordsOf (quoteLine ws) = ws.map Arg.quoted := by
  rw [wordsOf_eq]
  fun_induction quoteLine ws with
  | case1 => rfl
  | case2 w =>
    rw [← append_nil (quoteWord w), Mode.words_quoteWord (h w (by simp))]
    rfl
  | case3 w ws hws ih =>
    rw [Mode.words_quoteWord (h w (by simp)), Mode.words_quoted_blank (h w (by simp)),
      ih fun v hv => h v (by simp [hv])]
    rfl

end

theorem Setup.expand_quoted {w : List Char} (h : Literal w) : S.expand (.quoted w) = (w, false) := by
  have hspecial : findSpecial (w.length + 1) [] w = (w, []) := by
    have hall : ∀ c ∈ w, decide (c ∉ argSeparator) = true := fun c hc => by simpa using (h.ne hc).2.2
    rw [findSpecial, takeWhile_eq_self_iff.mpr hall, dropWhile_eq_nil_iff.mpr hall]
    rfl
  have hdequote : ∀ v : List Char, Literal v → nshDequote false v = v := by
    intro v hv
    induction v with
    | nil => rfl
    | cons c v ih =>
      rw [nshDequote, if_neg (fun hc => (hv.ne mem_cons_self).2.1 hc.1), ih hv.of_cons]
  simp only [Setup.expand, nshArgexpand, Arg.quoted, argexpandLoop, hspecial, nil_append, hdequote w h]
  rfl

/-! ## Operators among the words -/

section Collect

variable {S : Setup} {st : Args} {v : List Char} {vs : List (List Char)}

theorem collect_argument (h : Literal v) (hop : operator v = none) (hroom : st.argv.length < S.maxArgvEntries - 1) :
    collect S st none ((v :: vs).map Arg.quoted) =
      collect S { st with argv := st.argv ++ [v] } none (vs.map Arg.quoted) := by
  rw [map_cons, collect, if_pos hroom, S.expand_quoted h]
  simp only [Bool.false_eq_true, if_false, hop]

theorem collect_arguments (h : ∀ v ∈ vs, Literal v) (hop : ∀ v ∈ vs, operator v = none)
    (hroom : st.argv.length + vs.length < S.maxArgvEntries) :
    collect S st none (vs.map Arg.quoted) = { st with argv := st.argv ++ vs }.finish := by
  induction vs generalizing st with
  | nil => simp [collect]
  | cons v vs ih =>
    rw [length_cons] at hroom
    rw [collect_argument (h v (by simp)) (hop v (by simp)) (by omega),
      ih (fun u hu => h u (by simp [hu])) (fun u hu => hop u (by simp [hu])) (by simp; omega)]
    simp

section

variable (S : Setup) (st : Args) (arg : List Char) (op : Operator)

theorem Args.apply_cases :
    ((st.apply S arg op).2 = true ∧ (st.apply S arg op).1.argv = st.argv ∧
        (st.apply S arg op).1.executed = st.executed) ∨
      ∃ x, x.bg = true ∧ (st.apply S arg op).1.executed = st.executed ++ [x] := by
  cases op with
  | out2 | out1 | in1 => exact .inl ⟨rfl, rfl, rfl⟩
  | pipeline => exact .inr ⟨_, rfl, rfl⟩

theorem Args.apply_executed : st.executed <+: (st.apply S arg op).1.executed := by
  rcases st.apply_cases S arg op with ⟨-, -, h⟩ | ⟨x, -, h⟩ <;> simp [h]

end

theorem collect_executed (S : Setup) (st : Args) (p : Option Operator) (ws : List Arg) :
    st.executed <+: collect S st p ws := by
  have finish (st : Args) : st.executed <+: st.finish := by
    unfold Args.finish
    split <;> exact prefix_append _ _
  induction ws generalizing st p with
  | nil =>
    cases p with
    | none => exact finish st
    | some op => exact prefix_refl _
  | cons w ws ih =>
    have resume (st : Args) (arg : List Char) (op : Operator) : st.executed <+:
        if (st.apply S arg op).2 then collect S (st.apply S arg op).1 none ws else (st.apply S arg op).1.executed := by
      refine (st.apply_executed S arg op).trans ?_
      split
      · exact ih _ _
      · exact prefix_refl _
    cases p with
    | some op => exact resume st _ op
    | none =>
      rw [collect]
      split
      · generalize (if (S.expand w).2 then splitValue S (S.expand w).1.length st.argv (S.expand w).1
          else (st.argv, (S.expand w).1)) = r
        obtain ⟨argv, u⟩ := r
        dsimp only
        split
        · exact ih { st with argv := argv ++ [u] } none
        · exact ih { st with argv } _
        · exact resume { st with argv } _ _
      · exact finish st

theorem collect_operator {op : Operator} {arg : List Char} (h : Literal v) (hop : operator v = some (op, arg))
    (hroom : st.argv.length < S.maxArgvEntries - 1) :
    collect S st none ((v :: vs).map Arg.quoted) =
      if arg = [] then collect S st (some op) (vs.map Arg.quoted)
      else if (st.apply S arg op).2 then collect S (st.apply S arg op).1 none (vs.map Arg.quoted)
      else (st.apply S arg op).1.executed := by
  rw [map_cons, collect, if_pos hroom, S.expand_quoted h]
  simp only [Bool.false_eq_true, if_false, hop]
  cases arg <;> rfl

variable {e : Execution}

theorem Args.argv_finish (he : st.finish = [e]) (hbg : e.bg = false) : e.argv = st.argv := by
  unfold Args.finish at he
  split at he
  · obtain ⟨-, rfl⟩ := append_singleton_inj.mp (he.trans (nil_append _).symm)
    cases hbg
  · obtain ⟨-, rfl⟩ := append_singleton_inj.mp (he.trans (nil_append _).symm)
    rfl

theorem Args.apply_foreground {arg : List Char} {op : Operator} {ws : List Arg} (hbg : e.bg = false)
    (he : (if (st.apply S arg op).2 then collect S (st.apply S arg op).1 none ws
      else (st.apply S arg op).1.executed) = [e]) :
    (st.apply S arg op).1.argv = st.argv ∧ (st.apply S arg op).1.executed = st.executed ∧
      collect S (st.apply S arg op).1 none ws = [e] := by
  rcases st.apply_cases S arg op with ⟨h2, ha, hx⟩ | ⟨x, hb, hx⟩
  · rw [if_pos h2] at he
    exact ⟨ha, hx, he⟩
  · have hp : st.executed ++ [x] <+: [e] := by
      rw [← hx, ← he]
      split
      · exact collect_executed S _ _ _
      · exact prefix_refl _
    have : x = e := by simpa using hp.subset (mem_append_right _ (mem_singleton_self x))
    rw [this, hbg] at hb
    cases hb

/-- One command in the foreground has at most as many arguments as there are words, less if one begins with an
operator. -/
theorem collect_length {p : Option Operator} (h : ∀ v ∈ vs, Literal v)
    (hroom : st.argv.length + vs.length < S.maxArgvEntries) (hex : ∀ x ∈ st.executed, x.bg = true)
    (he : collect S st p (vs.map Arg.quoted) = [e]) (hbg : e.bg = false) :
    e.argv.length + p.toList.length ≤ st.argv.length + vs.length ∧
      (p = none → e.argv.length = st.argv.length + vs.length → ∀ v ∈ vs, operator v = none) := by
  induction vs generalizing st p with
  | nil =>
    cases p with
    | some op =>
      have := hex e (by rw [show st.executed = [e] from he]; simp)
      rw [hbg] at this
      cases this
    | none =>
      have hargv := Args.argv_finish (show st.finish = [e] from he) hbg
      simp [hargv]
  | cons v vs ih =>
    rw [length_cons] at hroom ⊢
    have hv : Literal v := h v (by simp)
    have hvs : ∀ u ∈ vs, Literal u := fun u hu => h u (by simp [hu])
    -- behind an operator and its file, all words that are left may still be arguments
    have resume (arg : List Char) (op : Operator) (hr : (if (st.apply S arg op).2 then
        collect S (st.apply S arg op).1 none (vs.map Arg.quoted) else (st.apply S arg op).1.executed) = [e]) :
        e.argv.length ≤ st.argv.length + vs.length := by
      obtain ⟨ha, hx, hr⟩ := Args.apply_foreground hbg hr
      have := (ih hvs (by rw [ha]; omega) (by rw [hx]; exact hex) hr).1
      rw [ha] at this
      simpa using this
    cases p with
    | some op =>
      have := resume _ _ he
      exact ⟨by simp only [Option.toList_some, length_singleton]; omega, by simp⟩
    | none =>
      cases hop : operator v with
      | none =>
        rw [collect_argument hv hop (by omega)] at he
        have hst : ({ st with argv := st.argv ++ [v] } : Args).argv.length + vs.length < S.maxArgvEntries := by
          show (st.argv ++ [v]).length + vs.length < _
          rw [length_append, length_singleton]
          omega
        have := ih hvs hst hex he
        rw [length_append, length_singleton] at this
        refine ⟨by have := this.1; omega, fun _ hl u hu => ?_⟩
        rcases mem_cons.mp hu with rfl | hu
        · exact hop
        · exact this.2 rfl (by omega) u hu
      | some r =>
        rw [collect_operator hv hop (by omega)] at he
        have hlt : e.argv.length ≤ st.argv.length + vs.length := by
          split at he
          · have := (ih hvs (by omega) hex he).1
            omega
          · exact resume _ _ he
        exact ⟨by simp; omega, fun _ hl => by omega⟩

end Collect

/-! ## A line of quoted words -/

def keywords : List String := loopKeywords ++ itefKeywords ++ ["nice"]

def Execution.plain (argv : List (List Char)) : Execution := ⟨argv, false, false, false, ⟨none, none, false, false⟩⟩

theorem nshNice_free (t : Target) {ws : List String} (h : Free ["nice"] ws) : nshNice t ws = some ws := by
  cases ws with
  | nil => rfl
  | cons cmd ws =>
    have hc : cmd ≠ "nice" := by simpa using h cmd rfl
    simp [nshNice, hc]

theorem Free.mono {kws kws' : List String} {ws : List String} (h : Free kws ws) (hs : kws' ⊆ kws) : Free kws' ws :=
  fun w hw hm => h w hw (hs hm)

theorem executions_quoted {S : Setup} {np : Parser} {cmd : List Char} {vs : List (List Char)}
    (h : ∀ w ∈ cmd :: vs, Literal w) (hk : String.ofList cmd ∉ keywords) (hr : np.Ready)
    (hc : nshCmdenabled np = true) :
    executions S np ((cmd :: vs).map Arg.quoted) =
      collect S (.start cmd) none (vs.map Arg.quoted) := by
  have hfree : Free keywords ((cmd :: vs).map String.ofList) := by
    intro w hw
    obtain rfl : String.ofList cmd = w := by simpa using hw
    exact hk
  have hwords : ((cmd :: vs).map Arg.quoted).map (fun a => String.ofList (S.expand a).1) =
      (cmd :: vs).map String.ofList := by
    rw [map_map]
    refine map_congr_left fun w hw => ?_
    rw [Function.comp_apply, S.expand_quoted (h w hw)]
  rw [executions, hwords, nshLoop_free (hfree.mono (by decide)) hr.notWhile hr.notUntil]
  dsimp only
  rw [nshItef_free (hfree.mono (by decide)) hr.notIf]
  dsimp only
  rw [nshNice_free _ (hfree.mono (by decide))]
  simp [hc, S.expand_quoted (h cmd (by simp))]

/-- A line of quoted words is executed as these words exactly if none behind the first begins with an operator and the
last is not `&`. -/
theorem quoted_iff {S : Setup} {np : Parser} {ws : List (List Char)} (hw : ∀ w ∈ ws, Literal w) (hne : ws ≠ [])
    (hk : ∀ cmd ∈ ws.head?, String.ofList cmd ∉ keywords) (hlen : ws.length ≤ S.maxarguments) (hr : np.Ready)
    (hc : nshCmdenabled np = true) :
    (nshParse (fun _ => false) (fun done _ args => (done ++ executions S np args, true)) [] (quoteLine ws)).1 =
        [.plain ws] ↔
      (∀ w ∈ ws.tail, operator w = none) ∧ ¬ (1 < ws.length ∧ ws.getLast? = some ['&']) := by
  obtain ⟨cmd, vs, rfl⟩ := exists_cons_of_ne_nil hne
  obtain ⟨w, len, hscan⟩ := scan_quoteLine hw none (by decide) 0 0
  have hrun : (nshParse (fun _ => false) (fun done _ args => (done ++ executions S np args, true)) []
      (quoteLine (cmd :: vs))).1 = executions S np ((cmd :: vs).map Arg.quoted) := by
    rw [nshParse, nshParseLoop, scanCommand_eq, hscan, ← wordsOf_quoteLine hw]
    rfl
  have hvs : ∀ v ∈ vs, Literal v := fun v hv => hw v (by simp [hv])
  have hroom : (Args.start cmd).argv.length + vs.length < S.maxArgvEntries := by
    rw [length_cons] at hlen
    show 1 + vs.length < S.maxarguments + 5
    omega
  have hfinish : ({ Args.start cmd with argv := (Args.start cmd).argv ++ vs } : Args).finish =
      if 1 < (cmd :: vs).length ∧ (cmd :: vs).getLast? = some ['&'] then
        [⟨(cmd :: vs).dropLast, true, false, false, ⟨none, none, false, false⟩⟩]
      else [.plain (cmd :: vs)] := rfl
  rw [hrun, executions_quoted hw (hk cmd rfl) hr hc, tail_cons]
  constructor
  · intro he
    have hop := (collect_length hvs hroom (fun _ hx => absurd hx (not_mem_nil)) he rfl).2 rfl (add_comm _ _)
    refine ⟨hop, fun hand => ?_⟩
    rw [collect_arguments hvs hop hroom, hfinish, if_pos hand] at he
    have hbg : true = false := congrArg Execution.bg (List.cons.inj he).1
    cases hbg
  · rintro ⟨hop, hand⟩
    rw [collect_arguments hvs hop hroom, hfinish, if_neg hand]

def Setup.bare : Setup where
  maxarguments := 7
  nestdepth := 3
  target := .bits32
  envexpand _ := []
  cmdparm _ := []
  refuses _ := false

theorem quoted_echo :
    (nshParse (fun _ => false) (fun done _ args => (done ++ executions .bare .init args, true)) []
      (quoteLine ["echo".toList, "a; b #c".toList, []])).1 = [.plain ["echo".toList, "a; b #c".toList, []]] :=
  (quoted_iff (by simp [Literal]; decide) (by decide) (by decide) (by decide) ⟨by decide, by decide, by decide⟩
    (by decide)).mpr ⟨by decide, by decide⟩

/-- In `"echo" ">" "f"` the output is redirected although the operator is quoted. -/
theorem not_quoted_redirect :
    (nshParse (fun _ => false) (fun done _ args => (done ++ executions .bare .init args, true)) []
        (quoteLine ["echo".toList, ">".toList, "f".toList])).1 =
      [⟨["echo".toList], false, false, true, ⟨none, some ("f".toList, false), false, false⟩⟩] ∧
    (nshParse (fun _ => false) (fun done _ args => (done ++ executions .bare .init args, true)) []
        (quoteLine ["echo".toList, ">".toList, "f".toList])).1 ≠
      [.plain ["echo".toList, ">".toList, "f".toList]] := by
  decide

end NuttxApps.Nsh
