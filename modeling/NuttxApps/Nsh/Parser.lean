import Mathlib.Logic.Function.Basic

/-!
# The control structures of NSH

`nsh_parse.c` keeps a stack of `while`/`until` loops and one of `if`-`then`-`else` sequences, and decides from the
innermost entry of each whether a command is executed. A command is the list of its words, with a result; `break` alone
changes the parser. Background commands and `nice` are left out. `Shell.step` is one turn of `nsh_script` on a script
with a command on each line, which ignores errors (`set +e`).
-/

namespace NuttxApps.Nsh

inductive LpState
  | loopNormal
  | loopWhile
  | loopUntil
  | loopDo
deriving DecidableEq

inductive ItefState
  | itefNormal
  | itefIf
  | itefThen
  | itefElse
deriving DecidableEq

structure LoopEntry where
  enable : Bool
  state : LpState
  (iendx topoffs : Nat)
deriving DecidableEq

structure ItefEntry where
  (ifcond disabled inverted : Bool)
  state : ItefState
deriving DecidableEq

/-- `CONFIG_NSH_NESTDEPTH`. The indices `np_lpndx` and `np_iendx` have eight bits. -/
structure Depth where
  nestdepth : Nat
  pos : 0 < nestdepth
  le : nestdepth ≤ 256

/-- `struct nsh_parser_s`: the last result, the positions of the current and the next command, and the stacks. -/
structure Parser where
  fail : Bool
  (foffs fpos : Nat)
  jump : Bool
  (lpndx iendx : Nat)
  iestate : Nat → ItefEntry
  lpstate : Nat → LoopEntry

/-- What `nsh_error` reports: the format and the word in it. -/
inductive NshError
  | fmtArgInvalid (cmd : String)
  | fmtContext (cmd : String)
  | fmtDeepNesting (cmd : String)
  | fmtInternalError (cmd : String)
deriving DecidableEq

def Parser.init : Parser where
  fail := false
  foffs := 0
  fpos := 0
  jump := false
  lpndx := 0
  iendx := 0
  iestate _ := ⟨false, false, false, .itefNormal⟩
  lpstate _ := ⟨false, .loopNormal, 0, 0⟩

structure Shell where
  np : Parser
  trace : List (List String)
  errors : List NshError

variable (nestdepth : Nat) (ρ : Nat → Bool) (s : Shell) (np : Parser)

def Parser.lp : LoopEntry := np.lpstate np.lpndx

def Parser.ie : ItefEntry := np.iestate np.iendx

def Parser.setLp (e : LoopEntry) : Parser :=
  { np with lpstate := Function.update np.lpstate np.lpndx e }

def Parser.setIe (e : ItefEntry) : Parser :=
  { np with iestate := Function.update np.iestate np.iendx e }

/-- `nsh_saveresult`: `result` is true of a command that failed. Returns whether
the result is `OK`. -/
def nshSaveresult (result : Bool) : Parser × Bool :=
  if np.lp.state = .loopWhile then
    (({ np with fail := false } : Parser).setLp { np.lp with enable := !result }, true)
  else if np.lp.state = .loopUntil then
    (({ np with fail := false } : Parser).setLp { np.lp with enable := result }, true)
  else if np.ie.state = .itefIf then
    (({ np with fail := false } : Parser).setIe { np.ie with ifcond := np.ie.inverted ^^ result }, true)
  else ({ np with fail := result }, !result)

def nshLoopEnabled : Bool := if np.lp.state = .loopDo then np.lp.enable else true

def nshItefEnabled : Bool :=
  !np.ie.disabled &&
    match np.ie.state with
    | .itefNormal => true
    | .itefIf => true
    | .itefThen => !np.ie.ifcond
    | .itefElse => np.ie.ifcond

def nshCmdenabled : Bool := nshLoopEnabled np && nshItefEnabled np

def Parser.loopErrout : Parser :=
  { np with
    jump := false
    lpndx := 0
    lpstate := Function.update np.lpstate 0
      { np.lpstate 0 with state := .loopNormal, enable := true, topoffs := 0 } }

/-- `nsh_loop`, in a script: the parser, and the words that are left or the error
that was reported. -/
def nshLoop : List String → Parser × Except NshError (List String)
  | [] => (np, .ok [])
  | cmd :: rest =>
    if cmd = "while" ∨ cmd = "until" then
      if rest = [] ∨ rest.head? = some "" then (np.loopErrout, .error (.fmtArgInvalid cmd))
      else if np.ie.state = .itefIf ∨ np.lp.state = .loopWhile ∨ np.lp.state = .loopUntil then
        (np.loopErrout, .error (.fmtContext cmd))
      else if np.lpndx ≥ nestdepth - 1 then (np.loopErrout, .error (.fmtDeepNesting cmd))
      else
        (({ np with jump := false, lpndx := np.lpndx + 1 } : Parser).setLp
          { enable := nshCmdenabled np
            state := if cmd = "while" then .loopWhile else .loopUntil
            iendx := np.iendx
            topoffs := np.foffs }, .ok rest)
    else if cmd = "do" then
      if np.lp.state ≠ .loopWhile ∧ np.lp.state ≠ .loopUntil then (np.loopErrout, .error (.fmtContext cmd))
      else (np.setLp { np.lp with state := .loopDo }, .ok rest)
    else if cmd = "done" then
      if rest ≠ [] then (np.loopErrout, .error (.fmtArgInvalid cmd))
      else if np.lp.state ≠ .loopDo then (np.loopErrout, .error (.fmtContext cmd))
      else if np.lpndx < 1 then (np.loopErrout, .error (.fmtInternalError cmd))
      else
        let np' : Parser :=
          if np.lp.enable then
            -- back to the top of the loop
            ({ np with fpos := np.lp.topoffs, jump := true } : Parser).setLp { np.lp with state := .loopNormal }
          else np.setLp { np.lp with enable := true, state := .loopNormal }
        ({ np' with lpndx := np.lpndx - 1 }, .ok [])
    else if np.lp.state = .loopWhile ∨ np.lp.state = .loopUntil then (np.loopErrout, .error (.fmtContext cmd))
    else (np, .ok (cmd :: rest))

def Parser.itefErrout : Parser :=
  { np with iendx := 0, iestate := Function.update np.iestate 0 ⟨false, false, false, .itefNormal⟩ }

def ifCondition (rest : List String) : Bool × List String :=
  if rest.head? = some "!" then (true, rest.tail) else (false, rest)

def nshItef : List String → Parser × Except NshError (List String)
  | [] => (np, .ok [])
  | cmd :: rest =>
    if cmd = "if" then
      let (inverted, cond) := ifCondition rest
      if cond = [] ∨ cond.head? = some "" then (np.itefErrout, .error (.fmtArgInvalid cmd))
      else if np.ie.state = .itefIf then (np.itefErrout, .error (.fmtContext cmd))
      else if np.iendx ≥ nestdepth - 1 then (np.itefErrout, .error (.fmtDeepNesting cmd))
      else
        (({ np with iendx := np.iendx + 1 } : Parser).setIe ⟨false, !nshCmdenabled np, inverted, .itefIf⟩, .ok cond)
    else if cmd = "then" then
      if np.ie.state ≠ .itefIf then (np.itefErrout, .error (.fmtContext cmd))
      else (np.setIe { np.ie with state := .itefThen }, .ok rest)
    else if cmd = "else" then
      if np.ie.state ≠ .itefThen then (np.itefErrout, .error (.fmtContext cmd))
      else (np.setIe { np.ie with state := .itefElse }, .ok rest)
    else if cmd = "fi" then
      if rest ≠ [] then (np.itefErrout, .error (.fmtArgInvalid cmd))
      else if np.ie.state ≠ .itefThen ∧ np.ie.state ≠ .itefElse then (np.itefErrout, .error (.fmtContext cmd))
      else if np.iendx < 1 then (np.itefErrout, .error (.fmtInternalError "if"))
      else ({ np with iendx := np.iendx - 1 }, .ok [])
    else if np.ie.state = .itefIf then (np.itefErrout, .error (.fmtContext cmd))
    else (np, .ok (cmd :: rest))

def cmdBreak : Parser :=
  if np.lp.state = .loopDo then
    ({ np with iendx := np.lp.iendx } : Parser).setLp { np.lp with enable := false }
  else np

def nshExecute (argv : List String) (result : Bool) : Parser × Bool :=
  if argv.head? = some "break" then nshSaveresult (cmdBreak np) false else nshSaveresult np result

/-- What `nsh_parse_command` leaves, whether it returns `OK`, the command it executed and the error it reported. -/
structure Parsed where
  np : Parser
  ok : Bool
  executed : Option (List String)
  error : Option NshError

variable (words : List String)

/-- `nsh_parse_command`, where a command that is executed has the given result. -/
def nshParseCommand (result : Bool) : Parsed :=
  match nshLoop nestdepth np words with
  | (np, .error e) => ⟨(nshSaveresult np true).1, (nshSaveresult np true).2, none, some e⟩
  | (np, .ok words) =>
    match nshItef nestdepth np words with
    | (np, .error e) => ⟨(nshSaveresult np true).1, (nshSaveresult np true).2, none, some e⟩
    | (np, .ok argv) =>
      if argv = [] ∨ nshCmdenabled np = false then ⟨np, true, none, none⟩
      else ⟨(nshExecute np argv result).1, (nshExecute np argv result).2, some argv, none⟩

def Shell.init : Shell := ⟨.init, [], []⟩

def Shell.next : Parser := { s.np with foffs := s.np.fpos, fpos := s.np.fpos + 1, jump := false }

def Shell.parse : Parsed :=
  nshParseCommand nestdepth s.next words (ρ s.trace.length)

def Shell.feed : Shell :=
  let r := s.parse nestdepth ρ words
  ⟨r.np, s.trace ++ r.executed.toList, s.errors ++ r.error.toList⟩

def Shell.step (prog : List (List String)) (ρ : Nat → Bool) (s : Shell) : Shell :=
  match prog[s.np.fpos]? with
  | none => s
  | some words => s.feed nestdepth ρ words

/-- A script of one command a line, under `set +e`: an error does not end it. -/
def runScript (nestdepth : Nat) (prog : List (List String)) (ρ : Nat → Bool) : Nat → Shell
  | 0 => .init
  | n + 1 => (runScript nestdepth prog ρ n).step nestdepth prog ρ

end NuttxApps.Nsh
