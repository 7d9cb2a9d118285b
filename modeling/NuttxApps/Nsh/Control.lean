import Mathlib.Tactic.SplitIfs
import NuttxApps.Nsh.Paths

/-!
# The stacks of the parser and the constructs of the script

At every turn of `nsh_script` the stacks mirror the constructs that are open where the next command stands (`Tracks`),
and at the end of the script both are empty (`keeps_stacks`), as long as a `break` is executed only where no conditional
has been opened inside its loop.
-/

namespace NuttxApps.Nsh

variable {nestdepth pos : Nat} {np np' : Parser} {π mid π' : Path} {words w : List String}

/-- Something that holds of the entries of every construct of a path, with the
constructs around it. -/
def Entries (P : Frame → Path → LoopEntry → ItefEntry → Prop) (np : Parser) : Path → Prop
  | [] => True
  | f :: π => P f π (np.lpstate (loops (f :: π))) (np.iestate (ifs (f :: π))) ∧ Entries P np π

/-- The entries are those of the construct, in the state its keywords have brought it to; a loop has its position and
the number of conditionals around it. -/
def Mirrored : Frame → Path → LoopEntry → ItefEntry → Prop
  | .loopCond i, π, e, _ => (e.state = .loopWhile ∨ e.state = .loopUntil) ∧ e.topoffs = i ∧ e.iendx = ifs π
  | .loopBody i, π, e, _ => e.state = .loopDo ∧ e.topoffs = i ∧ e.iendx = ifs π
  | .ifCond _, _, _, e => e.state = .itefIf
  | .thenBranch _, _, _, e => e.state = .itefThen
  | .elseBranch _, _, _, e => e.state = .itefElse

structure Tracks (np : Parser) (π : Path) : Prop where
  lpndx : np.lpndx = loops π
  iendx : np.iendx = ifs π
  lpNormal : (np.lpstate 0).state = .loopNormal
  ieNormal : (np.iestate 0).state = .itefNormal
  mirrored : Entries Mirrored np π

theorem Entries.below {P : Frame → Path → LoopEntry → ItefEntry → Prop} (h : Entries P np π)
    (hl : ∀ j ≤ loops π, np'.lpstate j = np.lpstate j) (hi : ∀ j ≤ ifs π, np'.iestate j = np.iestate j) :
    Entries P np' π := by
  induction π with
  | nil => trivial
  | cons f π ih =>
    refine ⟨?_, ih h.2 (fun j hj => hl j (Nat.le_trans hj ?_)) fun j hj => hi j (Nat.le_trans hj ?_)⟩
    · rw [hl _ .refl, hi _ .refl]
      exact h.1
    · simp
    · simp

variable {e : ItefEntry}

section Innermost

variable {P : Frame → Path → LoopEntry → ItefEntry → Prop} {f : Frame}

theorem Entries.setIe (h : Entries P np π) (hl : np.lpndx = loops π) (hi : np.iendx = ifs π + 1)
    (hf : f.isLoop = false) (he : P f π np.lp e) : Entries P (np.setIe e) (f :: π) := by
  refine ⟨?_, h.below (fun _ _ => rfl) fun j hj => ?_⟩
  · simpa [Parser.setIe, Parser.lp, hf, hl, hi] using he
  · simp only [Parser.setIe, hi]
    exact Function.update_of_ne (by omega) _ _

theorem Entries.setLp {e : LoopEntry} (h : Entries P np π) (hl : np.lpndx = loops π + 1) (hi : np.iendx = ifs π)
    (hf : f.isLoop = true) (he : P f π e np.ie) : Entries P (np.setLp e) (f :: π) := by
  refine ⟨?_, h.below (fun j hj => ?_) fun _ _ => rfl⟩
  · simpa [Parser.setLp, Parser.ie, hf, hl, hi] using he
  · simp only [Parser.setLp, hl]
    exact Function.update_of_ne (by omega) _ _

theorem Entries.pushIf (h : Entries P np π) (hl : np.lpndx = loops π) (hi : np.iendx = ifs π)
    (hf : f.isLoop = false) (he : P f π np.lp e) : Entries P (np.pushIf e) (f :: π) := by
  have h' : Entries P { np with iendx := np.iendx + 1 } π := h.below (fun _ _ => rfl) fun _ _ => rfl
  exact h'.setIe hl (congrArg (· + 1) hi) hf he

theorem Entries.pushLoop {e : LoopEntry} (h : Entries P np π) (hl : np.lpndx = loops π) (hi : np.iendx = ifs π)
    (hf : f.isLoop = true) (he : P f π e np.ie) : Entries P (np.pushLoop e) (f :: π) := by
  have h' : Entries P { np with jump := false, lpndx := np.lpndx + 1 } π := h.below (fun _ _ => rfl) fun _ _ => rfl
  exact h'.setLp (congrArg (· + 1) hl) hi hf he

end Innermost

theorem Tracks.lp_state (h : Tracks np π) (hs : ∀ i, .loopCond i ∉ π) :
    np.lp.state = .loopDo ∨ np.lp.state = .loopNormal := by
  obtain ⟨hl, -, hn, -, hm⟩ := h
  rw [Parser.lp, hl]
  clear hl
  induction π with
  | nil => exact .inr hn
  | cons f π ih =>
    have ih := ih (fun i hi => hs i (List.mem_cons_of_mem _ hi)) hm.2
    cases f with
    | loopCond i => exact absurd List.mem_cons_self (hs i)
    | loopBody => exact .inl hm.1.1
    | _ => simpa [Frame.isLoop] using ih

theorem Tracks.ie_state (h : Tracks np π) (hs : ∀ i, .ifCond i ∉ π) : np.ie.state ≠ .itefIf := by
  obtain ⟨-, hi, -, hn, hm⟩ := h
  rw [Parser.ie, hi]
  clear hi
  induction π with
  | nil => simp [hn]
  | cons f π ih =>
    have ih := ih (fun i hi => hs i (List.mem_cons_of_mem _ hi)) hm.2
    cases f with
    | ifCond i => exact absurd List.mem_cons_self (hs i)
    | thenBranch => rw [show (np.iestate _).state = _ from hm.1]; decide
    | elseBranch => rw [show (np.iestate _).state = _ from hm.1]; decide
    | _ => simpa [Frame.isLoop] using ih

theorem Settled.not_loopCond (h : Settled π) (i : Nat) : .loopCond i ∉ π :=
  fun hi => absurd (h _ hi) (by simp [Frame.isCond])

theorem Settled.not_ifCond (h : Settled π) (i : Nat) : .ifCond i ∉ π :=
  fun hi => absurd (h _ hi) (by simp [Frame.isCond])

theorem Tracks.not_loop (h : Tracks np π) (hs : ∀ i, .loopCond i ∉ π) :
    np.lp.state ≠ .loopWhile ∧ np.lp.state ≠ .loopUntil := by
  rcases h.lp_state hs with hl | hl <;> rw [hl] <;> decide

theorem Tracks.ready (h : Tracks np π) (hs : Settled π) : np.Ready :=
  ⟨(h.not_loop hs.not_loopCond).1, (h.not_loop hs.not_loopCond).2, h.ie_state hs.not_ifCond⟩

variable {f : Frame}

theorem Tracks.top (h : Tracks np (f :: π)) : Mirrored f π np.lp np.ie := by
  rw [Parser.lp, Parser.ie, h.lpndx, h.iendx]
  exact h.mirrored.1

def Parser.enter (np : Parser) (words : List String) : Parser :=
  if words.head? = some "do" then np.setLp { np.lp with state := .loopDo }
  else if words.head? = some "then" then np.setIe { np.ie with state := .itefThen }
  else if words.head? = some "else" then np.setIe { np.ie with state := .itefElse }
  else np

theorem Main.enter_eq (hm : Main nestdepth pos words π π') (np : Parser) : np.enter words = np := by
  simp [Parser.enter, hm.notLead "do" (by decide), hm.notLead "then" (by decide), hm.notLead "else" (by decide)]

theorem Tracks.setIe {f g : Frame} (h : Tracks np (f :: π)) (hf : f.isLoop = false)
    (hg : g.isLoop = false) (he : Mirrored g π np.lp e) : Tracks (np.setIe e) (g :: π) := by
  have hlx : np.lpndx = loops π := by simpa [hf] using h.lpndx
  have hix : np.iendx = ifs π + 1 := by simpa [hf] using h.iendx
  refine ⟨by simpa [Parser.setIe, hg] using hlx, by simpa [Parser.setIe, hg] using hix, h.lpNormal, ?_,
    h.mirrored.2.setIe hlx hix hg he⟩
  simpa [Parser.setIe, hix] using h.ieNormal

theorem Tracks.setLp {f g : Frame} {e : LoopEntry} (h : Tracks np (f :: π)) (hf : f.isLoop = true)
    (hg : g.isLoop = true) (he : Mirrored g π e np.ie) : Tracks (np.setLp e) (g :: π) := by
  have hlx : np.lpndx = loops π + 1 := by simpa [hf] using h.lpndx
  have hix : np.iendx = ifs π := by simpa [hf] using h.iendx
  refine ⟨by simpa [Parser.setLp, hg] using hlx, by simpa [Parser.setLp, hg] using hix, ?_, h.ieNormal,
    h.mirrored.2.setLp hlx hix hg he⟩
  simpa [Parser.setLp, hlx] using h.lpNormal

/-- A leading keyword that fits changes the state of the innermost entry; what stands behind it is parsed as if
alone. -/
theorem Tracks.lead (h : Tracks np π) (ht : Settled π.tail) (hl : Lead words π w mid)
    (hm : Main nestdepth pos w mid π') :
    Tracks (np.enter words) mid ∧
      ∀ result, nshParseCommand nestdepth np words result = nshParseCommand nestdepth (np.enter words) w result := by
  cases hl with
  | none =>
    rw [hm.enter_eq]
    exact ⟨h, fun _ => rfl⟩
  | @body _ i π hfree =>
    have he : np.enter ("do" :: w) = np.setLp { np.lp with state := .loopDo } := rfl
    exact ⟨h.setLp rfl rfl ⟨rfl, h.top.2⟩, fun _ => parse_do h.top.1 hfree⟩
  | @thn _ i π hfree hfree' =>
    have he : np.enter ("then" :: w) = np.setIe { np.ie with state := .itefThen } := rfl
    have hlp := h.not_loop fun j hj => ht.not_loopCond j (by simpa using hj)
    exact ⟨h.setIe rfl rfl rfl,
      fun _ => parse_branch (branchKeyword_then nestdepth) hlp.1 hlp.2 h.top hfree hfree'⟩
  | @els _ i π hfree hfree' =>
    have he : np.enter ("else" :: w) = np.setIe { np.ie with state := .itefElse } := rfl
    have hlp := h.not_loop fun j hj => ht.not_loopCond j (by simpa using hj)
    exact ⟨h.setIe rfl rfl rfl,
      fun _ => parse_branch (branchKeyword_else nestdepth) hlp.1 hlp.2 h.top hfree hfree'⟩

theorem Tracks.of_stacks (h : Tracks np π) (hl : np'.lpndx = np.lpndx) (hi : np'.iendx = np.iendx)
    (hls : np'.lpstate = np.lpstate) (his : np'.iestate = np.iestate) : Tracks np' π :=
  ⟨hl.trans h.lpndx, hi.trans h.iendx, by rw [hls]; exact h.lpNormal, by rw [his]; exact h.ieNormal,
    h.mirrored.below (fun _ _ => by rw [hls]) fun _ _ => by rw [his]⟩

theorem Tracks.pushLoop (h : Tracks np π) {e : LoopEntry} (he : e.state = .loopWhile ∨ e.state = .loopUntil)
    (hi : e.iendx = np.iendx) : Tracks (np.pushLoop e) (.loopCond e.topoffs :: π) := by
  refine ⟨?_, ?_, ?_, h.ieNormal, h.mirrored.pushLoop h.lpndx h.iendx rfl ⟨he, rfl, hi.trans h.iendx⟩⟩
  · simp [Parser.pushLoop, Parser.setLp, Frame.isLoop, h.lpndx]
  · simpa [Parser.pushLoop, Parser.setLp, Frame.isLoop] using h.iendx
  · simpa [Parser.pushLoop, Parser.setLp] using h.lpNormal

theorem Tracks.pushIf (h : Tracks np π) (he : e.state = .itefIf) (i : Nat) : Tracks (np.pushIf e) (.ifCond i :: π) := by
  refine ⟨?_, ?_, h.lpNormal, ?_, h.mirrored.pushIf h.lpndx h.iendx rfl he⟩
  · simpa [Parser.pushIf, Parser.setIe, Frame.isLoop] using h.lpndx
  · simp [Parser.pushIf, Parser.setIe, Frame.isLoop, h.iendx]
  · simpa [Parser.pushIf, Parser.setIe] using h.ieNormal

theorem Tracks.popIf (h : Tracks np (f :: π)) (hf : f.isLoop = false) : Tracks { np with iendx := np.iendx - 1 } π := by
  refine ⟨by simpa [hf] using h.lpndx, ?_, h.lpNormal, h.ieNormal,
    h.mirrored.2.below (fun _ _ => rfl) fun _ _ => rfl⟩
  have hix := h.iendx
  simp only [ifs_cons, hf] at hix
  simp [hix]

theorem Tracks.popLoop (h : Tracks np (f :: π)) (hf : f.isLoop = true) (hl : np'.lpndx = np.lpndx - 1)
    (hi : np'.iendx = np.iendx) (his : np'.iestate = np.iestate)
    (hls : ∀ j ≠ np.lpndx, np'.lpstate j = np.lpstate j) : Tracks np' π := by
  have hlx : np.lpndx = loops π + 1 := by simpa [hf] using h.lpndx
  refine ⟨by rw [hl, hlx]; rfl, by rw [hi, h.iendx]; simp [hf], ?_, by rw [his]; exact h.ieNormal, ?_⟩
  · rw [hls 0 (by omega)]
    exact h.lpNormal
  · exact h.mirrored.2.below (fun j hj => hls j (by omega)) fun _ _ => by rw [his]

theorem isLoop_of_isBranch (hf : f.isBranch = true) : f.isLoop = false := by
  cases f <;> first | rfl | cases hf

theorem Tracks.parse_fi {result : Bool} (h : Tracks np (f :: π)) (hf : f.isBranch = true) (hs : Settled π) :
    nshParseCommand nestdepth np ["fi"] result = ⟨{ np with iendx := np.iendx - 1 }, true, none, none⟩ := by
  have hpos : 0 < np.iendx := by
    rw [h.iendx]
    simp [isLoop_of_isBranch hf]
  have hset : Settled (f :: π) := settled_cons (by cases f <;> first | rfl | cases hf) hs
  refine Nsh.parse_fi (h.ready hset) ?_ hpos
  have htop := h.top
  cases f with
  | thenBranch => exact .inl htop
  | elseBranch => exact .inr htop
  | _ => cases hf

theorem Tracks.lpndx_pos {i : Nat} (h : Tracks np (.loopBody i :: π)) : 0 < np.lpndx := by
  rw [h.lpndx]
  simp [Frame.isLoop]

theorem Entries.lp_iendx_le (hm : Entries Mirrored np π) (hn : (np.lpstate 0).state = .loopNormal)
    (hd : (np.lpstate (loops π)).state = .loopDo) : (np.lpstate (loops π)).iendx ≤ ifs π := by
  induction π with
  | nil => rw [loops_nil, hn] at hd; cases hd
  | cons f π ih =>
    have ih := ih hm.2
    have hf := hm.1
    cases f with
    | loopCond i => exact Nat.le_of_eq hf.2.2
    | loopBody i => exact Nat.le_of_eq hf.2.2
    | _ =>
      simp only [loops_cons, ifs_cons, Frame.isLoop] at hd ⊢
      exact Nat.le_succ_of_le (ih hd)

theorem Tracks.directly (h : Tracks np π) (hs : Settled π) (hd : np.lp.state = .loopDo) (hi : np.iendx = np.lp.iendx) :
    ∃ i π₀, π = .loopBody i :: π₀ := by
  cases π with
  | nil =>
    have hl : np.lpndx = 0 := h.lpndx
    rw [Parser.lp, hl, h.lpNormal] at hd
    cases hd
  | cons f π =>
    have hinner : f.isLoop = false → False := fun hf => by
      have hlx : np.lpndx = loops π := by simpa [hf] using h.lpndx
      have hix : np.iendx = ifs π + 1 := by simpa [hf] using h.iendx
      rw [Parser.lp, hlx] at hd hi
      have := h.mirrored.2.lp_iendx_le h.lpNormal hd
      omega
    cases f with
    | loopBody i => exact ⟨i, π, rfl⟩
    | loopCond i => exact absurd List.mem_cons_self (hs.not_loopCond i)
    | _ => exact (hinner rfl).elim

theorem Tracks.cmdBreak (h : Tracks np π) (hs : Settled π) (hb : np.lp.state = .loopDo → np.iendx = np.lp.iendx) :
    Tracks (Nsh.cmdBreak np) π := by
  unfold Nsh.cmdBreak
  split
  case isFalse => exact h
  case isTrue hd =>
    obtain ⟨i, π₀, rfl⟩ := h.directly hs hd (hb hd)
    have h' : Tracks { np with iendx := np.lp.iendx } (.loopBody i :: π₀) :=
      h.of_stacks rfl (hb hd).symm rfl rfl
    exact h'.setLp rfl rfl h.top

/-- Where a `break` is executed, no conditional has been opened inside its loop. -/
def BreakOk (np : Parser) (words : List String) : Prop :=
  behind words = ["break"] → nshCmdenabled (np.enter words) = true →
    (np.enter words).lp.state = .loopDo → np.iendx = (np.enter words).lp.iendx

/-- A command that fits is no error, and leaves the stacks of the path behind it. Only `done` goes back. -/
theorem Tracks.main (h : Tracks np π) (hm : Main nestdepth np.foffs w π π') (result : Bool)
    (hb : w = ["break"] → nshCmdenabled np = true → np.lp.state = .loopDo → np.iendx = np.lp.iendx) :
    (nshParseCommand nestdepth np w result).error = none ∧
      Tracks (nshParseCommand nestdepth np w result).np π' ∧
      ((nshParseCommand nestdepth np w result).np.fpos = np.fpos ∨
        ∃ i, π = .loopBody i :: π' ∧ (nshParseCommand nestdepth np w result).np.fpos = i) := by
  cases hm with
  | nil => exact ⟨rfl, h, .inl rfl⟩
  | cmd hp hs =>
    rw [parse_plain (h.ready hs) hp]
    split
    · exact ⟨rfl, h.of_stacks rfl rfl rfl rfl, .inl rfl⟩
    · exact ⟨rfl, h, .inl rfl⟩
  | brk hs =>
    rw [parse_break (h.ready hs)]
    split
    case isTrue hc =>
      have hbrk := h.cmdBreak hs (hb rfl hc)
      rw [nshSaveresult_ready (hbrk.ready hs)]
      refine ⟨rfl, hbrk.of_stacks rfl rfl rfl rfl, .inl ?_⟩
      unfold Nsh.cmdBreak
      split <;> rfl
    case isFalse => exact ⟨rfl, h, .inl rfl⟩
  | loop isUntil hp hs hd =>
    rw [parse_loop isUntil (h.ready hs) hp (by rw [h.lpndx]; exact hd)]
    split
    · have h' : Tracks { np with fail := false } π := h.of_stacks rfl rfl rfl rfl
      exact ⟨rfl, h'.pushLoop (by cases isUntil <;> simp) rfl, .inl rfl⟩
    · exact ⟨rfl, h.pushLoop (by cases isUntil <;> simp) rfl, .inl rfl⟩
  | ite inverted hp hs hd =>
    rw [parse_if inverted (h.ready hs) hp (by rw [h.iendx]; exact hd)]
    split
    · have h' : Tracks { np with fail := false } π := h.of_stacks rfl rfl rfl rfl
      exact ⟨rfl, h'.pushIf rfl _, .inl rfl⟩
    · exact ⟨rfl, h.pushIf rfl _, .inl rfl⟩
  | @done i π₀ hs =>
    rw [Nsh.parse_done h.top.1 h.lpndx_pos]
    refine ⟨rfl, ?_⟩
    cases np.lp.enable with
    | false => exact ⟨h.popLoop rfl rfl rfl rfl fun j hj => Function.update_of_ne hj _ _, .inl rfl⟩
    | true =>
      exact ⟨h.popLoop rfl rfl rfl rfl fun j hj => Function.update_of_ne hj _ _, .inr ⟨i, rfl, h.top.2.1⟩⟩
  | fi hf hs =>
    rw [h.parse_fi hf hs]
    exact ⟨rfl, h.popIf (isLoop_of_isBranch hf), .inl rfl⟩

structure Consistent (prog : List (List String)) (s : Shell) : Prop where
  errors : s.errors = []
  tracks : Tracks s.np (pathAt prog s.np.fpos)

section

variable (np : Parser) (words : List String)

theorem enter_foffs : (np.enter words).foffs = np.foffs := by
  unfold Parser.enter
  split_ifs <;> rfl

theorem enter_fpos : (np.enter words).fpos = np.fpos := by
  unfold Parser.enter
  split_ifs <;> rfl

theorem enter_iendx : (np.enter words).iendx = np.iendx := by
  unfold Parser.enter
  split_ifs <;> rfl

end

/-- What is read in a turn: the command `w`, between the paths `mid` and `π'`. -/
structure Reads (nestdepth : Nat) (prog : List (List String)) (s : Shell) (words w : List String) (mid π' : Path) :
    Prop where
  lead : Lead words (pathAt prog s.np.fpos) w mid
  main : Main nestdepth (s.next.enter words).foffs w mid π'
  tracks : Tracks (s.next.enter words) mid
  parse : ∀ result, nshParseCommand nestdepth s.next words result =
    nshParseCommand nestdepth (s.next.enter words) w result
  opened : Opened prog mid (s.next.enter words).foffs
  next : pathAt prog (s.np.fpos + 1) = π'

section

variable {prog : List (List String)} {s : Shell}

theorem Consistent.reads (hprog : Threads nestdepth 0 [] prog [])
    (h : Consistent prog s) (hw : prog[s.np.fpos]? = some words) :
    ∃ w mid π', Reads nestdepth prog s words w mid π' := by
  obtain ⟨w, mid, π', hl, hm, hp⟩ := fits hprog hw
  have hn : Tracks s.next (pathAt prog s.np.fpos) := h.tracks.of_stacks rfl rfl rfl rfl
  obtain ⟨hmid, hparse⟩ := hn.lead (settled_tail hprog _) hl hm
  refine ⟨w, mid, π', hl, ?_, hmid, hparse, ?_, hp⟩ <;> rw [enter_foffs]
  · exact hm
  · exact (opened_pathAt hprog _).lead hl

theorem BreakOk.reads (hb : BreakOk s.next words)
    (hr : Reads nestdepth prog s words w mid π') (hw : w = ["break"]) (hc : nshCmdenabled (s.next.enter words) = true)
    (hd : (s.next.enter words).lp.state = .loopDo) : (s.next.enter words).iendx = (s.next.enter words).lp.iendx := by
  rw [enter_iendx]
  exact hb ((hr.lead.enter_eq hr.main).2.trans hw) hc hd

theorem Reads.path_feed (hr : Reads nestdepth prog s words w mid π')
    (hb : BreakOk s.next words) (ρ : Nat → Bool) : pathAt prog (s.feed nestdepth ρ words).np.fpos = π' := by
  obtain ⟨-, -, hpos⟩ := hr.tracks.main hr.main (ρ s.trace.length) (hb.reads hr)
  simp only [Shell.feed, Shell.parse, hr.parse]
  rcases hpos with hpos | ⟨i, rfl, hpos⟩
  · rw [hpos, enter_fpos]
    exact hr.next
  · rw [hpos]
    exact hr.opened.2.1 rfl

theorem Consistent.feed (hprog : Threads nestdepth 0 [] prog [])
    (h : Consistent prog s) (hw : prog[s.np.fpos]? = some words) (hb : BreakOk s.next words) (ρ : Nat → Bool) :
    Consistent prog (s.feed nestdepth ρ words) := by
  obtain ⟨w, mid, π', hr⟩ := h.reads hprog hw
  obtain ⟨he, ht, -⟩ := hr.tracks.main hr.main (ρ s.trace.length) (hb.reads hr)
  rw [← hr.parse] at he ht
  refine ⟨?_, ?_⟩
  · simp only [Shell.feed, Shell.parse, he, h.errors]
    rfl
  · rw [hr.path_feed hb]
    exact ht

end

def BreaksOk (prog : List (List String)) (s : Shell) : Prop := ∀ words ∈ prog[s.np.fpos]?, BreakOk s.next words

instance (np : Parser) (words : List String) : Decidable (BreakOk np words) := by
  unfold BreakOk
  infer_instance

instance (prog : List (List String)) (s : Shell) : Decidable (BreaksOk prog s) := by
  unfold BreaksOk
  infer_instance

theorem Script.threads {s : Script} (hp : s.Plain) (hi : s.InlineOk) (hl : s.loopDepth < nestdepth)
    (hd : s.ifDepth < nestdepth) : Threads nestdepth 0 [] s.commands [] :=
  threads_commands hp hi settled_nil (by rw [loops_nil]; omega) (by rw [ifs_nil]; omega) 0

theorem consistent_run {prog : List (List String)} (hprog : Threads nestdepth 0 [] prog []) (ρ : Nat → Bool) (n : Nat)
    (hb : ∀ m < n, BreaksOk prog (runScript nestdepth prog ρ m)) : Consistent prog (runScript nestdepth prog ρ n) := by
  induction n with
  | zero => exact ⟨rfl, rfl, rfl, rfl, rfl, trivial⟩
  | succ n ih =>
    have ih := ih fun m hm => hb m (by omega)
    rw [runScript, Shell.step]
    cases hw : prog[(runScript nestdepth prog ρ n).np.fpos]? with
    | none => exact ih
    | some words => exact ih.feed hprog hw (hb n n.lt_succ_self words hw) ρ

/-- No keyword of a well-formed script is an error, each `done` and `fi` removes the entry of its construct, and at the
end the stacks are empty, as long as a `break` is executed only where no conditional has been opened inside its loop. -/
theorem keeps_stacks (d : Depth) (s : Script) (hp : s.Plain) (hi : s.InlineOk) (hl : s.loopDepth < d.nestdepth)
    (hd : s.ifDepth < d.nestdepth) (ρ : Nat → Bool) (n : Nat)
    (hb : ∀ m < n, BreaksOk s.commands (runScript d.nestdepth s.commands ρ m)) :
    Consistent s.commands (runScript d.nestdepth s.commands ρ n) ∧
      (s.commands.length ≤ (runScript d.nestdepth s.commands ρ n).np.fpos →
        (runScript d.nestdepth s.commands ρ n).np.lpndx = Parser.init.lpndx ∧
        (runScript d.nestdepth s.commands ρ n).np.iendx = Parser.init.iendx) := by
  have hprog := Script.threads hp hi hl hd
  have h := consistent_run hprog ρ n hb
  refine ⟨h, fun hend => ?_⟩
  have ht := h.tracks
  rw [pathAt_end hprog hend] at ht
  exact ⟨ht.lpndx, ht.iendx⟩

def breakInLoop : Script :=
  .ifThen false ["a"] false
    (.loop false ["b"] true (.cmd ["c"] (.brk (.cmd ["d"] .nil))) .nil) .nil

theorem keeps_stacks_breakInLoop :
    (runScript 3 breakInLoop.commands (fun _ => false) 8).trace = [["a"], ["b"], ["c"], ["break"]] ∧
      Consistent breakInLoop.commands (runScript 3 breakInLoop.commands (fun _ => false) 8) :=
  ⟨by decide, (keeps_stacks ⟨3, by decide, by decide⟩ breakInLoop (by decide)
    (by simp [breakInLoop, Script.InlineOk, Script.StartsLoop]) (by decide) (by decide) (fun _ => false) 8
    (by decide)).1⟩

def breakInIf : Script :=
  .loop false ["a"] true (.ifThen false ["b"] true (.brk .nil) .nil) .nil

theorem break_in_conditional :
    breakInIf.Plain ∧ breakInIf.loopDepth < 3 ∧ breakInIf.ifDepth < 3 ∧
      (runScript 3 breakInIf.commands (fun _ => false) 4).errors = [.fmtContext "fi"] := by
  decide

end NuttxApps.Nsh
