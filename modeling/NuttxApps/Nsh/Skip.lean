import NuttxApps.Nsh.Control

/-!
# Skipped regions

A region is skipped if it lies in the body of a loop that is over or in the branch of a conditional that is not taken;
`Live` says that a path does not lie in one. `nsh_loop_enabled` does not look at the loop around a condition
(`condition_in_skipped_loop`). Otherwise only commands outside of skipped regions are executed (`never_skipped`).
-/

namespace NuttxApps.Nsh

open List

variable {nestdepth pos : Nat} {np np' : Parser} {π mid π' : Path} {words w : List String} {st : Nat → Bool}
  {prog : List (List String)}

def Frame.live (st : Nat → Bool) : Frame → Prop
  | .loopCond _ => True
  | .loopBody i => st i = true
  | .ifCond _ => True
  | .thenBranch i => st i = true
  | .elseBranch i => st i = false

def Live (st : Nat → Bool) (π : Path) : Prop := ∀ f ∈ π, f.live st

instance (st : Nat → Bool) : DecidablePred (Frame.live st)
  | .loopCond _ => inferInstanceAs (Decidable True)
  | .loopBody i => inferInstanceAs (Decidable (st i = true))
  | .ifCond _ => inferInstanceAs (Decidable True)
  | .thenBranch i => inferInstanceAs (Decidable (st i = true))
  | .elseBranch i => inferInstanceAs (Decidable (st i = false))

instance (st : Nat → Bool) (π : Path) : Decidable (Live st π) := by
  unfold Live
  infer_instance

def innermostLoop (π : Path) : Option Nat := (π.find? Frame.isLoop).map Frame.pos

/-- The outcomes behind a command: a condition decides about its construct, and `break` ends the innermost loop. -/
def decided (st : Nat → Bool) (pos : Nat) (w : List String) (π : Path) (result : Bool) : Nat → Bool :=
  if w.head? = some "while" then Function.update st pos (!result)
  else if w.head? = some "until" then Function.update st pos result
  else if w.head? = some "if" then Function.update st pos (result == (ifCondition w.tail).1)
  else if w.head? = some "break" then
    match innermostLoop π with
    | none => st
    | some i => Function.update st i false
  else st

/-- What the conditions executed in the first `n` turns have decided last, by the
positions of their constructs. -/
def outcome (nestdepth : Nat) (prog : List (List String)) (ρ : Nat → Bool) : Nat → Nat → Bool
  | 0 => fun _ => false
  | n + 1 =>
    let s := runScript nestdepth prog ρ n
    match prog[s.np.fpos]? with
    | none => outcome nestdepth prog ρ n
    | some words =>
      if (s.parse nestdepth ρ words).executed = none then outcome nestdepth prog ρ n
      else decided (outcome nestdepth prog ρ n) s.np.fpos (behind words) (enter words (pathAt prog s.np.fpos))
        (ρ s.trace.length)

variable {f : Frame} {le : LoopEntry} {ie : ItefEntry} {i : Nat}

theorem Frame.live_update (h : f.pos ≠ i) (b : Bool) : f.live (Function.update st i b) ↔ f.live st := by
  cases f <;> simp_all [Frame.live, Frame.pos]

theorem live_update (h : ∀ f ∈ π, f.pos ≠ i) (b : Bool) : Live (Function.update st i b) π ↔ Live st π :=
  forall₂_congr fun f hf => Frame.live_update (h f hf) b

theorem Opened.lt {n : Nat} (h : Opened prog π n) : ∀ f ∈ π, f.pos < n := by
  induction π generalizing n with
  | nil => simp
  | cons f π ih =>
    intro g hg
    rcases mem_cons.1 hg with rfl | hg
    · exact h.1
    · exact Nat.lt_trans (ih h.2.2 g hg) h.1

def Alive (st : Nat → Bool) (f : Frame) (π : Path) (le : LoopEntry) (ie : ItefEntry) : Prop :=
  match f.isLoop with
  | true => le.enable = true → Live st π ∧ st f.pos = true
  | false => ie.disabled = false → Live st π ∧ (ie.ifcond = false ↔ st f.pos = true)

theorem Alive.update (h : Alive st f π le ie)
    (hf : f.pos ≠ i) (hπ : ∀ g ∈ π, g.pos ≠ i) (b : Bool) : Alive (Function.update st i b) f π le ie := by
  unfold Alive
  rw [live_update hπ, Function.update_of_ne hf]
  exact h

theorem Entries.update (h : Entries (Alive st) np π) (hπ : ∀ f ∈ π, f.pos ≠ i) (b : Bool) :
    Entries (Alive (Function.update st i b)) np π := by
  induction π with
  | nil => trivial
  | cons f π ih =>
    have htail : ∀ g ∈ π, g.pos ≠ i := fun g hg => hπ g (mem_cons_of_mem _ hg)
    exact ⟨h.1.update (hπ f mem_cons_self) htail b, ih h.2 htail⟩

theorem Tracks.alive_top (h : Tracks np (f :: π)) (ha : Entries (Alive st) np (f :: π)) : Alive st f π np.lp np.ie := by
  rw [Parser.lp, Parser.ie, h.lpndx, h.iendx]
  exact ha.1

theorem Tracks.live (h : Tracks np π) (hs : Settled π) (ha : Entries (Alive st) np π) (hc : nshCmdenabled np = true) :
    Live st π := by
  obtain ⟨hl, hi⟩ : nshLoopEnabled np = true ∧ nshItefEnabled np = true := by
    simpa only [nshCmdenabled, Bool.and_eq_true] using hc
  cases π with
  | nil => exact fun f hf => absurd hf not_mem_nil
  | cons f π =>
    have htop := h.top
    have halive := h.alive_top ha
    suffices hf : f.live st ∧ Live st π by
      intro g hg
      rcases mem_cons.1 hg with rfl | hg
      · exact hf.1
      · exact hf.2 g hg
    cases f with
    | loopCond i => exact absurd mem_cons_self (hs.not_loopCond i)
    | ifCond i => exact absurd mem_cons_self (hs.not_ifCond i)
    | loopBody i =>
      obtain ⟨hlive, hst⟩ := halive (by simpa [nshLoopEnabled, htop.1] using hl)
      exact ⟨hst, hlive⟩
    | thenBranch i =>
      have hie : np.ie.state = .itefThen := htop
      simp only [nshItefEnabled, hie, Bool.and_eq_true, Bool.not_eq_true'] at hi
      obtain ⟨hlive, hst⟩ := halive hi.1
      exact ⟨hst.1 hi.2, hlive⟩
    | elseBranch i =>
      have hie : np.ie.state = .itefElse := htop
      simp only [nshItefEnabled, hie, Bool.and_eq_true, Bool.not_eq_true'] at hi
      obtain ⟨hlive, hst⟩ := halive hi.1
      exact ⟨by simpa [Frame.live, Frame.pos, hi.2] using hst, hlive⟩

theorem Tracks.alive_lead (h : Tracks np π) (ha : Entries (Alive st) np π) (hl : Lead words π w mid)
    (hm : Main nestdepth pos w mid π') : Entries (Alive st) (np.enter words) mid := by
  cases hl with
  | none => rwa [hm.enter_eq]
  | body =>
    exact ha.2.setLp (by simpa [Frame.isLoop] using h.lpndx) (by simpa [Frame.isLoop] using h.iendx) rfl
      (h.alive_top ha)
  | thn | els =>
    exact ha.2.setIe (by simpa [Frame.isLoop] using h.lpndx) (by simpa [Frame.isLoop] using h.iendx) rfl
      (h.alive_top ha)

/-- The condition of a loop is not executed where the loop around it is over. -/
def LoopOk (np : Parser) (w : List String) : Prop :=
  w.head? = some "while" ∨ w.head? = some "until" → nshLoopEnabled np = true ∨ nshItefEnabled np = false

theorem LoopOk.enabled {isUntil : Bool} {cond : List String} (h : LoopOk np (loopWords isUntil cond))
    (hi : nshItefEnabled np = true) : nshCmdenabled np = true := by
  have hl := h (by cases isUntil <;> simp [loopWords])
  simpa [nshCmdenabled, hi] using hl

theorem Tracks.executed_live (h : Tracks np π) (ha : Entries (Alive st) np π) (hm : Main nestdepth np.foffs w π π')
    (hlp : LoopOk np w) (result : Bool) (hx : (nshParseCommand nestdepth np w result).executed ≠ none) : Live st π := by
  cases hm with
  | nil => exact absurd rfl hx
  | cmd hp hs =>
    rw [parse_plain (h.ready hs) hp] at hx
    split at hx
    case isTrue hc => exact h.live hs ha hc
    case isFalse => exact absurd rfl hx
  | brk hs =>
    rw [parse_break (h.ready hs)] at hx
    split at hx
    case isTrue hc => exact h.live hs ha hc
    case isFalse => exact absurd rfl hx
  | loop isUntil hp hs hd =>
    rw [parse_loop isUntil (h.ready hs) hp (by rw [h.lpndx]; exact hd)] at hx
    split at hx
    case isTrue hc => exact h.live hs ha (hlp.enabled hc)
    case isFalse => exact absurd rfl hx
  | ite inverted hp hs hd =>
    rw [parse_if inverted (h.ready hs) hp (by rw [h.iendx]; exact hd)] at hx
    split at hx
    case isTrue hc => exact h.live hs ha hc
    case isFalse => exact absurd rfl hx
  | done hs =>
    rw [Nsh.parse_done h.top.1 h.lpndx_pos] at hx
    exact absurd rfl hx
  | fi hf hs =>
    rw [h.parse_fi hf hs] at hx
    exact absurd rfl hx

theorem decided_plain {argv : List String} (h : Plain argv) (result : Bool) : decided st pos argv π result = st := by
  have hne : ∀ w ∈ reserved, argv.head? ≠ some w := fun w hw => h.head_ne hw
  simp [decided, hne "while" (by decide), hne "until" (by decide), hne "if" (by decide), hne "break" (by decide)]

theorem decided_loop (isUntil : Bool) (cond : List String) (result : Bool) :
    decided st pos (loopWords isUntil cond) π result = Function.update st pos (result == isUntil) := by
  cases isUntil <;> simp [decided, loopWords]

theorem decided_if (inverted : Bool) {cond : List String} (h : Plain cond) (result : Bool) :
    decided st pos (ifWords inverted cond) π result = Function.update st pos (result == inverted) := by
  simp [decided, ifWords, ifCondition_words inverted h]

theorem Tracks.loopDo_of_innermostLoop (h : Tracks np π) (hs : Settled π) {i : Nat} (hi : innermostLoop π = some i) :
    np.lp.state = .loopDo := by
  have hm := h.mirrored
  rw [Parser.lp, h.lpndx]
  clear h
  induction π with
  | nil => cases hi
  | cons f π ih =>
    cases f with
    | loopCond i => exact absurd mem_cons_self (hs.not_loopCond i)
    | loopBody => exact hm.1.1
    | _ => simpa [Frame.isLoop] using ih (fun g hg => hs g (mem_cons_of_mem _ hg)) hi hm.2

theorem Tracks.alive_break (h : Tracks np π) (ha : Entries (Alive st) np π) (ho : Opened prog π pos) (hs : Settled π)
    (hb : np.lp.state = .loopDo → np.iendx = np.lp.iendx) (result : Bool) :
    Entries (Alive (decided st pos ["break"] π result)) (Nsh.cmdBreak np) π := by
  unfold Nsh.cmdBreak
  split
  case isTrue hd =>
    obtain ⟨i, π₀, rfl⟩ := h.directly hs hd (hb hd)
    have hdec : decided st pos ["break"] (.loopBody i :: π₀) result = Function.update st i false := by
      rfl
    have ha' : Entries (Alive (Function.update st i false)) { np with iendx := np.lp.iendx } π₀ :=
      (ha.2.update (fun f hf => Nat.ne_of_lt (ho.2.2.lt f hf)) false).below (fun _ _ => rfl) fun _ _ => rfl
    refine ha'.setLp (by simpa [Frame.isLoop] using h.lpndx) ?_ rfl nofun
    exact (hb hd).symm.trans (by simpa [Frame.isLoop] using h.iendx)
  case isFalse hd =>
    have hnone : innermostLoop π = none := by
      cases hi : innermostLoop π with
      | none => rfl
      | some i => exact absurd (h.loopDo_of_innermostLoop hs hi) hd
    simpa [decided, hnone] using ha

theorem Tracks.alive_main (h : Tracks np π) (ha : Entries (Alive st) np π) (ho : Opened prog π np.foffs)
    (hm : Main nestdepth np.foffs w π π') (hlp : LoopOk np w) (result : Bool)
    (hb : w = ["break"] → nshCmdenabled np = true → np.lp.state = .loopDo → np.iendx = np.lp.iendx) :
    Entries (Alive (if (nshParseCommand nestdepth np w result).executed = none then st
      else decided st np.foffs w π result)) (nshParseCommand nestdepth np w result).np π' := by
  have hpos : ∀ f ∈ π, f.pos ≠ np.foffs := fun f hf => Nat.ne_of_lt (ho.lt f hf)
  cases hm with
  | nil => exact ha
  | cmd hp hs =>
    rw [parse_plain (h.ready hs) hp]
    split <;> simp only [decided_plain hp, ite_self]
    · exact ha.below (fun _ _ => rfl) fun _ _ => rfl
    · exact ha
  | brk hs =>
    rw [parse_break (h.ready hs)]
    split
    case isTrue hc =>
      rw [nshSaveresult_ready ((h.cmdBreak hs (hb rfl hc)).ready hs)]
      exact (h.alive_break ha ho hs (hb rfl hc) result).below (fun _ _ => rfl) fun _ _ => rfl
    case isFalse => exact ha
  | @loop isUntil cond _ hp hs hd =>
    rw [parse_loop isUntil (h.ready hs) hp (by rw [h.lpndx]; exact hd)]
    split
    case isTrue hc =>
      have hlive := h.live hs ha (hlp.enabled hc)
      simp only [reduceCtorEq, if_false, decided_loop]
      have ha' : Entries (Alive (Function.update st np.foffs (result == isUntil))) { np with fail := false } π :=
        (ha.update hpos _).below (fun _ _ => rfl) fun _ _ => rfl
      refine ha'.pushLoop h.lpndx h.iendx rfl fun hen => ⟨(live_update hpos _).2 hlive, ?_⟩
      simpa [Frame.pos] using hen
    case isFalse =>
      exact ha.pushLoop h.lpndx h.iendx rfl nofun
  | @ite inverted cond _ hp hs hd =>
    rw [parse_if inverted (h.ready hs) hp (by rw [h.iendx]; exact hd)]
    split
    case isTrue hc =>
      have hlive := h.live hs ha hc
      simp only [reduceCtorEq, if_false, decided_if inverted hp]
      have ha' : Entries (Alive (Function.update st np.foffs (result == inverted))) { np with fail := false } π :=
        (ha.update hpos _).below (fun _ _ => rfl) fun _ _ => rfl
      refine ha'.pushIf h.lpndx h.iendx rfl fun _ => ⟨(live_update hpos _).2 hlive, ?_⟩
      cases inverted <;> cases result <;> simp [Frame.pos]
    case isFalse =>
      exact ha.pushIf h.lpndx h.iendx rfl nofun
  | done hs =>
    have hlx : np.lpndx = loops π' + 1 := by simpa [Frame.isLoop] using h.lpndx
    rw [Nsh.parse_done h.top.1 h.lpndx_pos]
    cases np.lp.enable <;>
      exact ha.2.below (fun j hj => Function.update_of_ne (by omega) _ _) fun _ _ => rfl
  | fi hf hs =>
    rw [h.parse_fi hf hs]
    exact ha.2.below (fun _ _ => rfl) fun _ _ => rfl

def LoopsOk (prog : List (List String)) (s : Shell) : Prop := ∀ words ∈ prog[s.np.fpos]?, LoopOk s.next words

instance (np : Parser) (words : List String) : Decidable (LoopOk np words) := by
  unfold LoopOk
  infer_instance

instance (prog : List (List String)) (s : Shell) : Decidable (LoopsOk prog s) := by
  unfold LoopsOk
  infer_instance

theorem LoopOk.lead (h : LoopOk np words) (hl : Lead words π w mid) (hm : Main nestdepth pos w mid π') :
    LoopOk (np.enter words) w := by
  have hfree : Free loopKeywords w → LoopOk (np.enter words) w := fun hf hw =>
    absurd hw (by rintro (hw | hw) <;> exact hf _ hw (by decide))
  cases hl with
  | none => rwa [hm.enter_eq]
  | body hf => exact hfree hf
  | thn hf => exact hfree hf
  | els hf => exact hfree hf

theorem Consistent.alive_reads {s : Shell} (h : Consistent prog s)
    (ha : Entries (Alive st) s.np (pathAt prog s.np.fpos))
    (hr : Reads nestdepth prog s words w mid π') : Entries (Alive st) (s.next.enter words) mid := by
  have hn : Tracks s.next (pathAt prog s.np.fpos) := h.tracks.of_stacks rfl rfl rfl rfl
  exact hn.alive_lead (ha.below (fun _ _ => rfl) fun _ _ => rfl) hr.lead hr.main

theorem alive_run (hprog : Threads nestdepth 0 [] prog []) (ρ : Nat → Bool) (n : Nat)
    (hok : ∀ m < n, BreaksOk prog (runScript nestdepth prog ρ m) ∧ LoopsOk prog (runScript nestdepth prog ρ m)) :
    Entries (Alive (outcome nestdepth prog ρ n)) (runScript nestdepth prog ρ n).np
      (pathAt prog (runScript nestdepth prog ρ n).np.fpos) := by
  induction n with
  | zero => trivial
  | succ n ih =>
    have ih := ih fun m hm => hok m (by omega)
    have hcons := consistent_run hprog ρ n fun m hm => (hok m (by omega)).1
    obtain ⟨hbs, hls⟩ := hok n n.lt_succ_self
    rw [runScript, outcome, Shell.step]
    generalize runScript nestdepth prog ρ n = s at ih hcons hbs hls ⊢
    cases hw : prog[s.np.fpos]? with
    | none => exact ih
    | some words =>
      obtain ⟨w, mid, π', hr⟩ := hcons.reads hprog hw
      obtain ⟨hmid, hw'⟩ := hr.lead.enter_eq hr.main
      have hmain := hr.tracks.alive_main (hcons.alive_reads ih hr) hr.opened hr.main
        ((hls words hw).lead hr.lead hr.main) (ρ s.trace.length) ((hbs words hw).reads hr)
      rw [enter_foffs, ← hr.parse] at hmain
      simp only [hr.path_feed (hbs words hw), hmid, hw']
      exact hmain

/-- A command that is executed lies in no skipped region: not in the body of a loop that is over, and not in a branch
that is not taken; as long as a `break` is executed only where no conditional has been opened inside its loop, and a
condition of a loop is parsed only where the loop around it is enabled or the conditional around it is not. -/
theorem never_skipped (d : Depth) (s : Script) (hp : s.Plain) (hi : s.InlineOk) (hl : s.loopDepth < d.nestdepth)
    (hd : s.ifDepth < d.nestdepth) (ρ : Nat → Bool) (n : Nat)
    (hok : ∀ m ≤ n, BreaksOk s.commands (runScript d.nestdepth s.commands ρ m) ∧
      LoopsOk s.commands (runScript d.nestdepth s.commands ρ m)) :
    ∀ words ∈ s.commands[(runScript d.nestdepth s.commands ρ n).np.fpos]?,
      ((runScript d.nestdepth s.commands ρ n).parse d.nestdepth ρ words).executed ≠ none →
        Live (outcome d.nestdepth s.commands ρ n)
          (enter words (pathAt s.commands (runScript d.nestdepth s.commands ρ n).np.fpos)) := by
  intro words hw hx
  have hprog := Script.threads hp hi hl hd
  have ha := alive_run hprog ρ n fun m hm => hok m (Nat.le_of_lt hm)
  have hcons := consistent_run hprog ρ n fun m hm => (hok m (Nat.le_of_lt hm)).1
  obtain ⟨w, mid, π', hr⟩ := hcons.reads hprog hw
  rw [(hr.lead.enter_eq hr.main).1]
  rw [Shell.parse, hr.parse] at hx
  exact hr.tracks.executed_live (hcons.alive_reads ha hr) hr.main
    (((hok n (Nat.le_refl n)).2 words hw).lead hr.lead hr.main) _ hx

def branchInLoop : Script :=
  .loop false ["a"] true
    (.ifElse false ["b"] true (.cmd ["c"] .nil) true (.cmd ["d"] .nil) (.brk (.cmd ["e"] .nil))) .nil

theorem never_skipped_branchInLoop :
    ((runScript 3 branchInLoop.commands (· == 1) 3).parse 3 (· == 1) ["else", "d"]).executed = some ["d"] ∧
      Live (outcome 3 branchInLoop.commands (· == 1) 3)
        (enter ["else", "d"] (pathAt branchInLoop.commands (runScript 3 branchInLoop.commands (· == 1) 3).np.fpos)) :=
  ⟨by decide, never_skipped ⟨3, by decide, by decide⟩ branchInLoop (by decide)
    (by simp [branchInLoop, Script.InlineOk, Script.StartsIf, Script.StartsLoop]) (by decide) (by decide) (· == 1) 3
    (by decide) ["else", "d"] (by decide) (by decide)⟩

def loopInLoop : Script :=
  .loop false ["a"] false (.loop false ["b"] true (.cmd ["c"] .nil) .nil) .nil

theorem condition_in_skipped_loop :
    loopInLoop.Plain ∧ loopInLoop.loopDepth < 3 ∧ loopInLoop.ifDepth < 3 ∧
      (runScript 3 loopInLoop.commands (· == 0) 4).trace = [["a"], ["b"], ["c"]] ∧
      ¬ Live (outcome 3 loopInLoop.commands (· == 0) 2)
        (enter ["while", "b"] (pathAt loopInLoop.commands (runScript 3 loopInLoop.commands (· == 0) 2).np.fpos)) := by
  decide

end NuttxApps.Nsh
