import Mathlib.Tactic.SplitIfs
import NuttxApps.Nsh.Keywords

/-!
# The stacks of the parser on any input

Whatever lines NSH is given, the indices of the two stacks stay below `CONFIG_NSH_NESTDEPTH`, and the errors that
`nsh_loop` and `nsh_itef` call internal are never reported (`runLines_inRange`).
-/

namespace NuttxApps.Nsh

/-- `nsh_loop`, of a line from a script or of one that was typed (`np_fd < 0`). -/
def nshLoopIn (script : Bool) (nestdepth : Nat) (np : Parser) : List String → Parser × Except NshError (List String)
  | cmd :: rest =>
    if (cmd = "while" ∨ cmd = "until") ∧ rest ≠ [] ∧ rest.head? ≠ some "" ∧ script = false then
      (np.loopErrout, .error (.fmtContext cmd))
    else nshLoop nestdepth np (cmd :: rest)
  | [] => nshLoop nestdepth np []

/-- What a command does to the parser that executes it: nothing, as where its redirection is bad or it runs in a task of
its own; `cmd_break`; or it has a result. -/
inductive Action
  | quiet
  | brk
  | result (failed : Bool)

/-- A command, with all that the same parser reads on the way: the commands in the words that `nsh_loop` and `nsh_itef`
collect, and the lines that it reads itself, as `source` does. `quoted` is a command in back-quotes, where keywords mean
nothing. -/
inductive Line
  | mk (script : Bool) (foffs : Nat) (words : List String) (before between inner : List Line) (action : Action)
  | quoted (inner : List Line) (action : Action)

structure Reading where
  np : Parser
  past : List Parser
  errors : List NshError

def Reading.init : Reading := ⟨.init, [.init], []⟩

variable (r : Reading)

def Reading.to (np : Parser) : Reading := { r with np := np, past := r.past ++ [np] }

def Reading.report (e : NshError) : Reading := { r with errors := r.errors ++ [e] }

def Reading.fail (np : Parser) (e : NshError) : Reading :=
  ((r.to np).report e).to (nshSaveresult np true).1

def Action.run : Action → Reading
  | .quiet => r
  | .brk => (r.to (cmdBreak r.np)).to (nshSaveresult (cmdBreak r.np) false).1
  | .result failed => r.to (nshSaveresult r.np failed).1

mutual

def Line.run (nestdepth : Nat) (r : Reading) : Line → Reading
  | .mk script foffs words before between inner action =>
    let r := runLines nestdepth (r.to { r.np with foffs := foffs, jump := false }) before
    match nshLoopIn script nestdepth r.np words with
    | (np, .error e) => r.fail np e
    | (np, .ok words) =>
      let r := runLines nestdepth (r.to np) between
      match nshItef nestdepth r.np words with
      | (np, .error e) => r.fail np e
      | (np, .ok argv) =>
        if argv = [] ∨ nshCmdenabled np = false then r.to np
        else action.run (runLines nestdepth (r.to np) inner)
  | .quoted inner action => if nshCmdenabled r.np then action.run (runLines nestdepth r inner) else r

def runLines (nestdepth : Nat) (r : Reading) : List Line → Reading
  | [] => r
  | line :: lines => runLines nestdepth (Line.run nestdepth r line) lines

end

/-- The indices are in range, also those saved in loops, and the entries at the bottom are no part of a loop or a
conditional. -/
structure Bounded (nestdepth : Nat) (np : Parser) : Prop where
  lpndx : np.lpndx < nestdepth
  iendx : np.iendx < nestdepth
  saved : ∀ i, (np.lpstate i).iendx < nestdepth
  lpBottom : (np.lpstate 0).state = .loopNormal
  ieBottom : (np.iestate 0).state = .itefNormal

variable {nestdepth : Nat} {np : Parser}

theorem Bounded.lpndx_ne_zero (h : Bounded nestdepth np) (hs : np.lp.state ≠ .loopNormal) : np.lpndx ≠ 0 := by
  intro h0
  rw [Parser.lp, h0] at hs
  exact hs h.lpBottom

theorem Bounded.iendx_ne_zero (h : Bounded nestdepth np) (hs : np.ie.state ≠ .itefNormal) : np.iendx ≠ 0 := by
  intro h0
  rw [Parser.ie, h0] at hs
  exact hs h.ieBottom

theorem Bounded.of_stacks {np' : Parser} (h : Bounded nestdepth np) (hl : np'.lpndx < nestdepth)
    (hi : np'.iendx < nestdepth) (hls : np'.lpstate = np.lpstate) (his : np'.iestate = np.iestate) :
    Bounded nestdepth np' :=
  ⟨hl, hi, hls ▸ h.saved, hls ▸ h.lpBottom, his ▸ h.ieBottom⟩

section

variable (h : Bounded nestdepth np)

include h

theorem Bounded.setLp (e : LoopEntry) (h0 : np.lpndx ≠ 0) (he : e.iendx < nestdepth) :
    Bounded nestdepth (np.setLp e) := by
  refine ⟨h.lpndx, h.iendx, fun i => ?_, ?_, h.ieBottom⟩
  · by_cases hi : i = np.lpndx
    · simpa [Parser.setLp, hi] using he
    · simpa [Parser.setLp, hi] using h.saved i
  · simpa [Parser.setLp, h0.symm] using h.lpBottom

theorem Bounded.setIe (e : ItefEntry) (h0 : np.iendx ≠ 0) : Bounded nestdepth (np.setIe e) :=
  ⟨h.lpndx, h.iendx, h.saved, h.lpBottom, by simpa [Parser.setIe, h0.symm] using h.ieBottom⟩

theorem Bounded.lp_iendx : np.lp.iendx < nestdepth := h.saved _

theorem Bounded.loopErrout : Bounded nestdepth np.loopErrout := by
  refine ⟨Nat.zero_lt_of_lt h.lpndx, h.iendx, fun i => ?_, by simp [Parser.loopErrout], h.ieBottom⟩
  by_cases hi : i = 0
  · simpa [Parser.loopErrout, hi] using h.saved 0
  · simpa [Parser.loopErrout, hi] using h.saved i

theorem Bounded.itefErrout : Bounded nestdepth np.itefErrout :=
  ⟨h.lpndx, Nat.zero_lt_of_lt h.iendx, h.saved, h.lpBottom, by simp [Parser.itefErrout]⟩

theorem Bounded.saveresult (failed : Bool) : Bounded nestdepth (nshSaveresult np failed).1 := by
  have hfail : ∀ b, Bounded nestdepth ({ np with fail := b } : Parser) :=
    fun b => h.of_stacks h.lpndx h.iendx rfl rfl
  rw [nshSaveresult]
  split
  · rename_i hs
    exact (hfail false).setLp _ (h.lpndx_ne_zero (by simp [hs])) h.lp_iendx
  · split
    · rename_i hs
      exact (hfail false).setLp _ (h.lpndx_ne_zero (by simp [hs])) h.lp_iendx
    · split
      · rename_i hs
        exact (hfail false).setIe _ (h.iendx_ne_zero (by simp [hs]))
      · exact hfail failed

theorem Bounded.cmdBreak : Bounded nestdepth (cmdBreak np) := by
  rw [Nsh.cmdBreak]
  split_ifs with hs
  · have hi : Bounded nestdepth ({ np with iendx := np.lp.iendx } : Parser) :=
      h.of_stacks h.lpndx h.lp_iendx rfl rfl
    exact hi.setLp _ (h.lpndx_ne_zero (by simp [hs])) h.lp_iendx
  · exact h

end

def Sound (nestdepth : Nat) (r : Parser × Except NshError (List String)) : Prop :=
  Bounded nestdepth r.1 ∧ ∀ cmd, r.2 ≠ .error (.fmtInternalError cmd)

variable {e : NshError}

section

variable (h : Bounded nestdepth np)

include h

theorem Bounded.loop_error (he : ∀ cmd, e ≠ .fmtInternalError cmd) : Sound nestdepth (np.loopErrout, .error e) :=
  ⟨h.loopErrout, fun cmd hc => he cmd (Except.error.inj hc)⟩

theorem Bounded.itef_error (he : ∀ cmd, e ≠ .fmtInternalError cmd) : Sound nestdepth (np.itefErrout, .error e) :=
  ⟨h.itefErrout, fun cmd hc => he cmd (Except.error.inj hc)⟩

theorem Bounded.ok (words : List String) : Sound nestdepth (np, .ok words) :=
  ⟨h, fun _ => nofun⟩

theorem Bounded.pushLoop (hd : np.lpndx < nestdepth - 1) (enable : Bool) (state : LpState)
    (topoffs : Nat) : Bounded nestdepth (np.pushLoop ⟨enable, state, np.iendx, topoffs⟩) := by
  have hup : Bounded nestdepth ({ np with jump := false, lpndx := np.lpndx + 1 } : Parser) :=
    h.of_stacks (show np.lpndx + 1 < nestdepth by omega) h.iendx rfl rfl
  exact hup.setLp _ (Nat.succ_ne_zero _) h.iendx

theorem Bounded.pushIf (hd : np.iendx < nestdepth - 1) (e : ItefEntry) : Bounded nestdepth (np.pushIf e) := by
  have hup : Bounded nestdepth ({ np with iendx := np.iendx + 1 } : Parser) :=
    h.of_stacks h.lpndx (show np.iendx + 1 < nestdepth by omega) rfl rfl
  exact hup.setIe _ (Nat.succ_ne_zero _)

theorem Bounded.popLoop (hs : np.lp.state = .loopDo) :
    Bounded nestdepth { (if np.lp.enable then
        ({ np with fpos := np.lp.topoffs, jump := true } : Parser).setLp { np.lp with state := .loopNormal }
      else np.setLp { np.lp with enable := true, state := .loopNormal } : Parser) with lpndx := np.lpndx - 1 } := by
  have h0 : np.lpndx ≠ 0 := h.lpndx_ne_zero (by simp [hs])
  have hdown : np.lpndx - 1 < nestdepth := by have := h.lpndx; omega
  split
  · have hj : Bounded nestdepth ({ np with fpos := np.lp.topoffs, jump := true } : Parser) :=
      h.of_stacks h.lpndx h.iendx rfl rfl
    exact (hj.setLp { np.lp with state := .loopNormal } h0 h.lp_iendx).of_stacks hdown h.iendx rfl rfl
  · exact (h.setLp { np.lp with enable := true, state := .loopNormal } h0 h.lp_iendx).of_stacks hdown h.iendx rfl rfl

theorem Bounded.nshLoop (words : List String) : Sound nestdepth (nshLoop nestdepth np words) := by
  cases words with
  | nil => exact h.ok []
  | cons cmd rest =>
    rw [Nsh.nshLoop]
    generalize (if cmd = "while" then LpState.loopWhile else .loopUntil) = state
    generalize hpop : (if np.lp.enable then _ else _ : Parser) = np'
    split_ifs with hloop harg hctx hdeep hdo hcond hdone hmore hbody hinternal
    any_goals (apply h.loop_error; simp; done)
    · exact (h.pushLoop (by omega) _ _ _).ok rest
    · have hw : np.lp.state ≠ .loopNormal := by
        intro hn
        simp [hn] at hcond
      exact (h.setLp { np.lp with state := .loopDo } (h.lpndx_ne_zero hw) h.lp_iendx).ok rest
    · -- the branch of the internal error: at the bottom, there is no loop
      have := h.lpndx_ne_zero (by simp [not_not.mp hbody])
      omega
    · subst hpop
      exact (h.popLoop (not_not.mp hbody)).ok []
    · exact h.ok _

theorem Bounded.nshLoopIn (script : Bool) (words : List String) :
    Sound nestdepth (nshLoopIn script nestdepth np words) := by
  cases words with
  | nil => exact h.nshLoop []
  | cons cmd rest =>
    rw [Nsh.nshLoopIn]
    split
    · exact h.loop_error nofun
    · exact h.nshLoop (cmd :: rest)

theorem Bounded.nshItef (words : List String) : Sound nestdepth (nshItef nestdepth np words) := by
  cases words with
  | nil => exact h.ok []
  | cons cmd rest =>
    rw [Nsh.nshItef]
    dsimp only
    split_ifs with hif harg hctx hdeep hthen hcond helse hbranch hfi hmore hopen hinternal
    any_goals (apply h.itef_error; simp; done)
    · exact (h.pushIf (by omega) _).ok _
    · exact (h.setIe _ (h.iendx_ne_zero (by simp [not_not.mp hcond]))).ok rest
    · exact (h.setIe _ (h.iendx_ne_zero (by simp [not_not.mp hbranch]))).ok rest
    · have := h.iendx_ne_zero fun hn => hopen (by simp [hn])
      omega
    · have hdown : np.iendx - 1 < nestdepth := Nat.lt_of_le_of_lt (Nat.sub_le _ _) h.iendx
      have hpop : Bounded nestdepth { np with iendx := np.iendx - 1 } := h.of_stacks h.lpndx hdown rfl rfl
      exact hpop.ok []
    · exact h.ok _

end

def InRange (nestdepth : Nat) (np : Parser) : Prop := np.lpndx ≤ nestdepth - 1 ∧ np.iendx ≤ nestdepth - 1

structure Reading.Good (nestdepth : Nat) (r : Reading) : Prop where
  bounded : Bounded nestdepth r.np
  past : ∀ np ∈ r.past, InRange nestdepth np
  errors : ∀ cmd, .fmtInternalError cmd ∉ r.errors

variable {r : Reading}

section

variable (h : r.Good nestdepth)

include h

theorem Reading.Good.to (hb : Bounded nestdepth np) : (r.to np).Good nestdepth := by
  refine ⟨hb, ?_, h.errors⟩
  have hr : InRange nestdepth np := ⟨Nat.le_sub_one_of_lt hb.lpndx, Nat.le_sub_one_of_lt hb.iendx⟩
  simpa [Reading.to, or_imp, forall_and] using ⟨h.past, hr⟩

theorem Reading.Good.report (he : ∀ cmd, e ≠ .fmtInternalError cmd) : (r.report e).Good nestdepth :=
  ⟨h.bounded, h.past, fun cmd => by simpa [Reading.report] using ⟨h.errors cmd, (he cmd).symm⟩⟩

theorem Reading.Good.fail (hs : Sound nestdepth (np, .error e)) : (r.fail np e).Good nestdepth :=
  ((h.to hs.1).report fun cmd he => hs.2 cmd (congrArg _ he)).to (hs.1.saveresult true)

theorem Reading.Good.action (action : Action) : (action.run r).Good nestdepth := by
  cases action with
  | quiet => exact h
  | brk => exact (h.to h.bounded.cmdBreak).to (h.bounded.cmdBreak.saveresult false)
  | result failed => exact h.to (h.bounded.saveresult failed)

end

mutual

theorem Line.run_good (line : Line) (r : Reading) (h : r.Good nestdepth) :
    (Line.run nestdepth r line).Good nestdepth := by
  match line with
  | .mk script foffs words before between inner action =>
    have hstart : Bounded nestdepth ({ r.np with foffs := foffs, jump := false } : Parser) :=
      h.bounded.of_stacks h.bounded.lpndx h.bounded.iendx rfl rfl
    have hbefore := runLines_good before _ (h.to hstart)
    have hl := hbefore.bounded.nshLoopIn script words
    rw [Line.run]
    simp only
    split
    · rename_i np e hloop
      exact hbefore.fail (hloop ▸ hl)
    · rename_i np words' hloop
      rw [hloop] at hl
      have hbetween := runLines_good between _ (hbefore.to hl.1)
      have hi := hbetween.bounded.nshItef words'
      split
      · rename_i np' e hitef
        exact hbetween.fail (hitef ▸ hi)
      · rename_i np' argv hitef
        rw [hitef] at hi
        split
        · exact hbetween.to hi.1
        · exact (runLines_good inner _ (hbetween.to hi.1)).action action
  | .quoted inner action =>
    rw [Line.run]
    split
    · exact (runLines_good inner r h).action action
    · exact h

theorem runLines_good (lines : List Line) (r : Reading) (h : r.Good nestdepth) :
    (runLines nestdepth r lines).Good nestdepth := by
  match lines with
  | [] => rwa [runLines]
  | line :: lines =>
    exact runLines_good lines _ (Line.run_good line r h)

end

theorem runLines_inRange (d : Depth) (lines : List Line) :
    (∀ np ∈ (runLines d.nestdepth .init lines).past, InRange d.nestdepth np) ∧
      ∀ cmd, .fmtInternalError cmd ∉ (runLines d.nestdepth .init lines).errors := by
  have hinit : Reading.init.Good d.nestdepth :=
    ⟨⟨d.pos, d.pos, fun _ => d.pos, rfl, rfl⟩, by simp [Reading.init, InRange, Parser.init], by simp [Reading.init]⟩
  have hgood := runLines_good lines .init hinit
  exact ⟨hgood.past, hgood.errors⟩

end NuttxApps.Nsh
