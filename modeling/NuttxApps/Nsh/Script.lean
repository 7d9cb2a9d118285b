import NuttxApps.Nsh.Parser

/-!
# Scripts

The syntax of well-formed scripts, the commands they are written as, and what they mean (`Script.exec`), given the
result of each command that is executed. `then`, `else` and `do` may stand on a line of their own or in front of the
first command behind them.
-/

namespace NuttxApps.Nsh

/-- A sequence of commands. `inline` tells that the keyword in front of a branch or
body stands on the line of its first command. -/
inductive Script
  | nil
  | cmd (argv : List String) (rest : Script)
  | brk (rest : Script)
  | ifThen (inverted : Bool) (cond : List String) (inline : Bool) (thn rest : Script)
  | ifElse (inverted : Bool) (cond : List String) (inline : Bool) (thn : Script) (inline' : Bool) (els rest : Script)
  | loop (isUntil : Bool) (cond : List String) (inline : Bool) (body rest : Script)

/-- A keyword, in front of the first of the commands or on its own. -/
def lead (inline : Bool) (kw : String) : List (List String) → List (List String)
  | [] => [[kw]]
  | c :: cs => if inline then (kw :: c) :: cs else [kw] :: c :: cs

def ifWords (inverted : Bool) (cond : List String) : List String :=
  "if" :: if inverted then "!" :: cond else cond

def loopWords (isUntil : Bool) (cond : List String) : List String :=
  (if isUntil then "until" else "while") :: cond

def Script.commands : Script → List (List String)
  | .nil => []
  | .cmd argv rest => argv :: rest.commands
  | .brk rest => ["break"] :: rest.commands
  | .ifThen inverted cond inline thn rest =>
    ifWords inverted cond :: (lead inline "then" thn.commands ++ ["fi"] :: rest.commands)
  | .ifElse inverted cond inline thn inline' els rest =>
    ifWords inverted cond :: (lead inline "then" thn.commands ++
      (lead inline' "else" els.commands ++ ["fi"] :: rest.commands))
  | .loop isUntil cond inline body rest =>
    loopWords isUntil cond :: (lead inline "do" body.commands ++ ["done"] :: rest.commands)

abbrev Trace := List (List String)

/-- The rounds of a loop: the condition, then the body, which returns whether it ended in a `break`. A loop of `fuel`
rounds or more has no result. -/
def rounds (ρ : Nat → Bool) (isUntil : Bool) (cond : List String) (body : Trace → Option (Trace × Bool)) :
    Nat → Trace → Option Trace
  | 0, _ => none
  | fuel + 1, t =>
    if ρ t.length = isUntil then
      match body (t ++ [cond]) with
      | none => none
      | some (t, true) => some t
      | some (t, false) => rounds ρ isUntil cond body fuel t
    else some (t ++ [cond])

def andThen (r : Option (Trace × Bool)) (next : Trace → Option (Trace × Bool)) : Option (Trace × Bool) :=
  match r with
  | some (t, false) => next t
  | r => r

/-- The commands executed, behind those so far, and whether the script ends in a `break`. The `n`th command has the
result `ρ n`, true if it failed. -/
def Script.exec (ρ : Nat → Bool) (fuel : Nat) : Script → Trace → Option (Trace × Bool)
  | .nil, t => some (t, false)
  | .cmd argv rest, t => rest.exec ρ fuel (t ++ [argv])
  | .brk _, t => some (t ++ [["break"]], true)
  | .ifThen inverted cond _ thn rest, t =>
    andThen (if ρ t.length = inverted then thn.exec ρ fuel (t ++ [cond]) else some (t ++ [cond], false))
      (rest.exec ρ fuel)
  | .ifElse inverted cond _ thn _ els rest, t =>
    andThen (if ρ t.length = inverted then thn.exec ρ fuel (t ++ [cond]) else els.exec ρ fuel (t ++ [cond]))
      (rest.exec ρ fuel)
  | .loop isUntil cond _ body rest, t =>
    (rounds ρ isUntil cond (body.exec ρ fuel) fuel t).bind (rest.exec ρ fuel)

def loopKeywords : List String := ["while", "until", "do", "done"]

def itefKeywords : List String := ["if", "then", "else", "fi"]

/-- The words that have a meaning of their own as the first word of a command. -/
def reserved : List String := loopKeywords ++ itefKeywords ++ ["break", "!", ""]

def Plain : List String → Prop
  | [] => False
  | w :: _ => w ∉ reserved

instance : DecidablePred Plain
  | [] => inferInstanceAs (Decidable False)
  | w :: _ => inferInstanceAs (Decidable (w ∉ reserved))

def Script.Plain : Script → Prop
  | .nil => True
  | .cmd argv rest => Nsh.Plain argv ∧ rest.Plain
  | .brk rest => rest.Plain
  | .ifThen _ cond _ thn rest => Nsh.Plain cond ∧ thn.Plain ∧ rest.Plain
  | .ifElse _ cond _ thn _ els rest => Nsh.Plain cond ∧ thn.Plain ∧ els.Plain ∧ rest.Plain
  | .loop _ cond _ body rest => Nsh.Plain cond ∧ body.Plain ∧ rest.Plain

def Script.ifDepth : Script → Nat
  | .nil => 0
  | .cmd _ rest => rest.ifDepth
  | .brk rest => rest.ifDepth
  | .ifThen _ _ _ thn rest => max (thn.ifDepth + 1) rest.ifDepth
  | .ifElse _ _ _ thn _ els rest => max (max thn.ifDepth els.ifDepth + 1) rest.ifDepth
  | .loop _ _ _ body rest => max body.ifDepth rest.ifDepth

def Script.loopDepth : Script → Nat
  | .nil => 0
  | .cmd _ rest => rest.loopDepth
  | .brk rest => rest.loopDepth
  | .ifThen _ _ _ thn rest => max thn.loopDepth rest.loopDepth
  | .ifElse _ _ _ thn _ els rest => max (max thn.loopDepth els.loopDepth) rest.loopDepth
  | .loop _ _ _ body rest => max (body.loopDepth + 1) rest.loopDepth

def Script.StartsIf : Script → Prop
  | .ifThen .. => True
  | .ifElse .. => True
  | _ => False

def Script.StartsLoop : Script → Prop
  | .loop .. => True
  | _ => False

/-- What `nsh_parse_command` understands behind a keyword: no conditional or loop behind `then` and `else`, no loop
behind `do`. -/
def Script.InlineOk : Script → Prop
  | .nil => True
  | .cmd _ rest => rest.InlineOk
  | .brk rest => rest.InlineOk
  | .ifThen _ _ inline thn rest =>
    (inline = true → ¬ thn.StartsIf ∧ ¬ thn.StartsLoop) ∧ thn.InlineOk ∧ rest.InlineOk
  | .ifElse _ _ inline thn inline' els rest =>
    (inline = true → ¬ thn.StartsIf ∧ ¬ thn.StartsLoop) ∧ (inline' = true → ¬ els.StartsIf ∧ ¬ els.StartsLoop) ∧
      thn.InlineOk ∧ els.InlineOk ∧ rest.InlineOk
  | .loop _ _ inline body rest => (inline = true → ¬ body.StartsLoop) ∧ body.InlineOk ∧ rest.InlineOk

def Script.LoopFree : Script → Prop
  | .nil => True
  | .cmd _ rest => rest.LoopFree
  | .brk _ => False
  | .ifThen _ _ _ thn rest => thn.LoopFree ∧ rest.LoopFree
  | .ifElse _ _ _ thn _ els rest => thn.LoopFree ∧ els.LoopFree ∧ rest.LoopFree
  | .loop .. => False

instance Script.decidablePlain : DecidablePred Script.Plain
  | .nil => inferInstanceAs (Decidable True)
  | .cmd argv rest => have := rest.decidablePlain; inferInstanceAs (Decidable (Nsh.Plain argv ∧ rest.Plain))
  | .brk rest => rest.decidablePlain
  | .ifThen _ cond _ thn rest =>
    have := thn.decidablePlain; have := rest.decidablePlain
    inferInstanceAs (Decidable (Nsh.Plain cond ∧ thn.Plain ∧ rest.Plain))
  | .ifElse _ cond _ thn _ els rest =>
    have := thn.decidablePlain; have := els.decidablePlain; have := rest.decidablePlain
    inferInstanceAs (Decidable (Nsh.Plain cond ∧ thn.Plain ∧ els.Plain ∧ rest.Plain))
  | .loop _ cond _ body rest =>
    have := body.decidablePlain; have := rest.decidablePlain
    inferInstanceAs (Decidable (Nsh.Plain cond ∧ body.Plain ∧ rest.Plain))

end NuttxApps.Nsh
