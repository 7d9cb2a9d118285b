import NuttxApps.Nsh.Feed

/-!
# Nested conditionals

A script of simple commands and conditionals executes the commands that `Script.exec` says just if no conditional stands
on the line of the `then` or `else` in front of it (`itef_iff`): behind these keywords `nsh_itef` has already looked at
the command.
-/

namespace NuttxApps.Nsh

open List hiding max

variable {nestdepth : Nat} {ρ : Nat → Bool}

def Shell.feedAll (nestdepth : Nat) (ρ : Nat → Bool) (s : Shell) (cmds : List (List String)) : Shell :=
  cmds.foldl (Shell.feed nestdepth ρ) s

@[simp] theorem feedAll_nil (s : Shell) : s.feedAll nestdepth ρ [] = s := rfl

@[simp] theorem feedAll_cons (s : Shell) (c : List String) (cs : List (List String)) :
    s.feedAll nestdepth ρ (c :: cs) = (s.feed nestdepth ρ c).feedAll nestdepth ρ cs := rfl

@[simp] theorem feedAll_append (s : Shell) (cs cs' : List (List String)) :
    s.feedAll nestdepth ρ (cs ++ cs') = (s.feedAll nestdepth ρ cs).feedAll nestdepth ρ cs' :=
  foldl_append

variable {np np' : Parser} {e e' : ItefEntry}

section Lead

variable {kw : String} {before after : ItefState} {s : Shell} (hk : BranchKeyword nestdepth kw before after)
  (hs : Same (np.pushIf e) s.np) (hr : np.Ready) (he : e.state = before)
include hk hs hr he

theorem feed_lead {inline : Bool} {cmds : List (List String)}
    (hf : inline = true → ∀ c ∈ cmds.head?, Free loopKeywords c ∧ Free itefKeywords c) :
    ∃ np', Same (np.pushIf { e with state := after }) np' ∧ ∀ ρ,
      s.feedAll nestdepth ρ (lead inline kw cmds) =
        Shell.feedAll nestdepth ρ ⟨np', s.trace, s.errors⟩ cmds := by
  have hn := hs.trans (Same.next s)
  have hi : s.next.ie = e := hn.ie.trans (ie_pushIf e)
  have hl : s.next.lp = np.lp := hn.lp
  have hp : ∀ words result, Free loopKeywords words → Free itefKeywords words →
      nshParseCommand nestdepth s.next (kw :: words) result =
        nshParseCommand nestdepth (s.next.setIe { s.next.ie with state := after }) words result :=
    fun words result => parse_branch hk (hl ▸ hr.notWhile) (hl ▸ hr.notUntil) (hi ▸ he)
  rw [hi] at hp
  have hone : ∀ ρ, s.feed nestdepth ρ [kw] = ⟨s.next.setIe { e with state := after }, s.trace, s.errors⟩ := by
    intro ρ
    simp [Shell.feed, Shell.parse, hp [] _ (free_nil _) (free_nil _), parse_nil]
  cases cmds with
  | nil => exact ⟨_, hn.setIe, fun ρ => by simp [lead, hone]⟩
  | cons c cs =>
    cases inline with
    | false => exact ⟨_, hn.setIe, fun ρ => by simp [lead, hone]⟩
    | true =>
      obtain ⟨hl, hf⟩ := hf rfl c rfl
      refine ⟨s.np.setIe { e with state := after }, hs.setIe, fun ρ => ?_⟩
      simp only [lead, if_true, feedAll_cons]
      congr 1
      simp only [Shell.feed, Shell.parse, hp c _ hl hf]
      rfl

theorem trace_lead_if (hc : nshCmdenabled (np.pushIf { e with state := after }) = true) (ρ : Nat → Bool)
    (inverted : Bool) (cond : List String) :
    (s.feed nestdepth ρ (kw :: ifWords inverted cond)).trace = s.trace ++ [ifWords inverted cond] := by
  have hn := hs.trans (Same.next s)
  have hi : s.next.ie = e := hn.ie.trans (ie_pushIf e)
  have hl : s.next.lp = np.lp := hn.lp
  have hx : (nshParseCommand nestdepth s.next (kw :: ifWords inverted cond) (ρ s.trace.length)).executed = some _ :=
    executed_branch hk (hl ▸ hr.notWhile) (hl ▸ hr.notUntil) (hi ▸ he) (by rw [hi, hn.setIe.enabled, hc])
      (by simp [ifWords])
  simp [Shell.feed, Shell.parse, hx]

end Lead

variable {fuel : Nat} {s : Script}

theorem Script.StartsIf.commands (h : s.StartsIf) : ∃ inverted cond cs, s.commands = ifWords inverted cond :: cs := by
  cases s with
  | ifThen inverted cond => exact ⟨inverted, cond, _, rfl⟩
  | ifElse inverted cond => exact ⟨inverted, cond, _, rfl⟩
  | _ => exact h.elim

theorem Script.LoopFree.notStartsLoop (h : s.LoopFree) : ¬ s.StartsLoop := by
  cases s <;> simp_all [Script.LoopFree, Script.StartsLoop]

def Script.execTrace (ρ : Nat → Bool) (fuel : Nat) (s : Script) (t : Trace) : Trace :=
  match s.exec ρ fuel t with
  | some (t', _) => t'
  | none => []

/-- The script's commands are executed as its meaning says if commands are enabled in
front of it, and skipped otherwise. -/
def Follows (nestdepth : Nat) (ρ : Nat → Bool) (fuel : Nat) (s : Script) : Prop :=
  ∀ sh : Shell, sh.np.Ready → sh.np.iendx + s.ifDepth ≤ nestdepth - 1 →
    ∃ np', Same sh.np np' ∧ sh.feedAll nestdepth ρ s.commands =
      ⟨np', if nshCmdenabled sh.np then s.execTrace ρ fuel sh.trace else sh.trace, sh.errors⟩

theorem exec_loopFree (h : s.LoopFree) (fuel : Nat) (t : Trace) :
    s.exec ρ fuel t = some (s.execTrace ρ fuel t, false) := by
  suffices hs : ∃ t', s.exec ρ fuel t = some (t', false) by
    obtain ⟨t', ht⟩ := hs
    rw [Script.execTrace, ht]
  induction s generalizing t with
  | nil => exact ⟨t, rfl⟩
  | cmd argv rest ih => exact ih h _
  | brk => exact h.elim
  | ifThen inverted cond inline thn rest iht ihr =>
    rw [Script.exec]
    split
    · obtain ⟨t', hb⟩ := iht h.1 (t ++ [cond])
      rw [hb]
      exact ihr h.2 t'
    · exact ihr h.2 _
  | ifElse inverted cond inline thn inline' els rest iht ihe ihr =>
    have hb : ∃ t', (if ρ t.length = inverted then thn.exec ρ fuel (t ++ [cond])
        else els.exec ρ fuel (t ++ [cond])) = some (t', false) := by
      split
      · exact iht h.1 _
      · exact ihe h.2.1 _
    obtain ⟨t', hb⟩ := hb
    rw [Script.exec, hb]
    exact ihr h.2.2 t'
  | loop => exact h.elim

theorem execTrace_ifThen {thn rest : Script} (h : thn.LoopFree) (h' : rest.LoopFree) (inverted inline : Bool)
    (cond : List String) (fuel : Nat) (t : Trace) :
    (Script.ifThen inverted cond inline thn rest).execTrace ρ fuel t =
      rest.execTrace ρ fuel
        (if ρ t.length = inverted then thn.execTrace ρ fuel (t ++ [cond]) else t ++ [cond]) := by
  rw [Script.execTrace, Script.exec]
  by_cases hr : ρ t.length = inverted <;> simp [andThen, hr, exec_loopFree h, exec_loopFree h']

theorem execTrace_ifElse {thn els rest : Script} (h : thn.LoopFree) (h' : els.LoopFree) (h'' : rest.LoopFree)
    (inverted inline inline' : Bool) (cond : List String) (fuel : Nat) (t : Trace) :
    (Script.ifElse inverted cond inline thn inline' els rest).execTrace ρ fuel t =
      rest.execTrace ρ fuel
        (if ρ t.length = inverted then thn.execTrace ρ fuel (t ++ [cond]) else els.execTrace ρ fuel (t ++ [cond])) := by
  rw [Script.execTrace, Script.exec]
  by_cases hr : ρ t.length = inverted <;> simp [andThen, hr, exec_loopFree h, exec_loopFree h', exec_loopFree h'']

section Branches

variable {fuel : Nat} {thn : Script} {cond : List String} {inline : Bool} {sh : Shell}

theorem feed_branch (sh : Shell) {branch : Script} {kw : String} {before after : ItefState} {inverted result : Bool}
    (hk : BranchKeyword nestdepth kw before after) (hb : Follows nestdepth ρ fuel branch) (hr : np.Ready)
    (hs : Same (np.pushIf (ifEntry (nshCmdenabled np) inverted result before)) sh.np)
    (hf : inline = true → ∀ c ∈ branch.commands.head?, Free loopKeywords c ∧ Free itefKeywords c)
    (hd : np.iendx + (branch.ifDepth + 1) ≤ nestdepth - 1) :
    ∃ np', Same (np.pushIf (ifEntry (nshCmdenabled np) inverted result after)) np' ∧
      sh.feedAll nestdepth ρ (lead inline kw branch.commands) =
        ⟨np', if nshCmdenabled np && branchTaken inverted result after then branch.execTrace ρ fuel sh.trace
          else sh.trace, sh.errors⟩ := by
  obtain ⟨n₁, h₁, e₁⟩ := feed_lead hk hs hr rfl hf
  have hr₁ : n₁.Ready := h₁.ready ⟨hr.notWhile, hr.notUntil, by simpa [ifEntry] using hk.notIf⟩
  have hd₁ : n₁.iendx = np.iendx + 1 := h₁.iendx
  obtain ⟨n₂, h₂, e₂⟩ := hb ⟨n₁, sh.trace, sh.errors⟩ hr₁ (by simp only [hd₁]; omega)
  refine ⟨n₂, h₁.trans h₂, ?_⟩
  rw [e₁, e₂]
  congr 2
  rw [h₁.enabled]
  exact congrArg (· = true) (enabled_branch np inverted result after)

theorem feed_then (inverted : Bool) (ht : Follows nestdepth ρ fuel thn) (hr : sh.np.Ready) (hc : Plain cond)
    (hf : inline = true → ∀ c ∈ thn.commands.head?, Free loopKeywords c ∧ Free itefKeywords c)
    (hd : sh.np.iendx + (thn.ifDepth + 1) ≤ nestdepth - 1) :
    ∃ np', Same (sh.np.pushIf (ifEntry (nshCmdenabled sh.np) inverted (ρ sh.trace.length) .itefThen)) np' ∧
      sh.feedAll nestdepth ρ (ifWords inverted cond :: lead inline "then" thn.commands) =
        ⟨np', if nshCmdenabled sh.np then
            if ρ sh.trace.length = inverted then thn.execTrace ρ fuel (sh.trace ++ [cond]) else sh.trace ++ [cond]
          else sh.trace, sh.errors⟩ := by
  obtain ⟨n₁, h₁, e₁⟩ := feed_if nestdepth ρ inverted hr hc (by omega)
  obtain ⟨n₂, h₂, e₂⟩ := feed_branch ⟨n₁, _, sh.errors⟩ (branchKeyword_then nestdepth) ht hr h₁ hf hd
  refine ⟨n₂, h₂, ?_⟩
  rw [feedAll_cons, e₁, e₂]
  cases nshCmdenabled sh.np <;> simp [branchTaken]

end Branches

theorem feed_commands (hl : s.LoopFree) (hp : s.Plain) (hi : s.InlineOk) : Follows nestdepth ρ fuel s := by
  induction s with
  | nil => exact fun sh _ _ => ⟨sh.np, .refl _, by simp [Script.commands, Script.execTrace, Script.exec]⟩
  | cmd argv rest ih =>
    intro sh hr hd
    obtain ⟨n₁, h₁, e₁⟩ := feed_plain nestdepth ρ hr hp.1
    obtain ⟨n₂, h₂, e₂⟩ := ih hl hp.2 hi ⟨n₁, _, sh.errors⟩ (h₁.ready hr) (h₁.iendx ▸ hd)
    refine ⟨n₂, h₁.trans h₂, ?_⟩
    rw [Script.commands, feedAll_cons, e₁, e₂]
    cases hc : nshCmdenabled sh.np <;> simp [h₁.enabled, hc, Script.execTrace, Script.exec]
  | brk => exact hl.elim
  | loop => exact hl.elim
  | ifThen inverted cond inline thn rest iht ihr =>
    intro sh hr hd
    obtain ⟨hfree, hit, hir⟩ := hi
    simp only [Script.ifDepth] at hd
    obtain ⟨n₁, h₁, e₁⟩ := feed_then inverted (iht hl.1 hp.2.1 hit) hr hp.1
      (fun h => head_free hp.2.1 (hfree h).1 (hfree h).2) (by omega)
    obtain ⟨n₂, h₂, e₂⟩ := feed_fi nestdepth ρ (s := ⟨n₁, _, sh.errors⟩) h₁ hr (.inl rfl)
    obtain ⟨n₃, h₃, e₃⟩ := ihr hl.2 hp.2.2 hir ⟨n₂, _, sh.errors⟩ (h₂.ready hr) (by simp only [h₂.iendx]; omega)
    refine ⟨n₃, h₂.trans h₃, ?_⟩
    rw [Script.commands, ← cons_append, feedAll_append, e₁, feedAll_cons, e₂, e₃, execTrace_ifThen hl.1 hl.2]
    cases hc : nshCmdenabled sh.np <;> simp [h₂.enabled, hc]
  | ifElse inverted cond inline thn inline' els rest iht ihe ihr =>
    intro sh hr hd
    obtain ⟨hft, hfe, hit, hie, hir⟩ := hi
    simp only [Script.ifDepth] at hd
    obtain ⟨n₁, h₁, e₁⟩ := feed_then inverted (iht hl.1 hp.2.1 hit) hr hp.1
      (fun h => head_free hp.2.1 (hft h).1 (hft h).2) (by omega)
    obtain ⟨n₂, h₂, e₂⟩ := feed_branch ⟨n₁, _, sh.errors⟩ (branchKeyword_else nestdepth)
      (ihe hl.2.1 hp.2.2.1 hie) hr h₁ (fun h => head_free hp.2.2.1 (hfe h).1 (hfe h).2) (by omega)
    obtain ⟨n₃, h₃, e₃⟩ := feed_fi nestdepth ρ (s := ⟨n₂, _, sh.errors⟩) h₂ hr (.inr rfl)
    obtain ⟨n₄, h₄, e₄⟩ := ihr hl.2.2 hp.2.2.2 hir ⟨n₃, _, sh.errors⟩ (h₃.ready hr) (by simp only [h₃.iendx]; omega)
    refine ⟨n₄, h₃.trans h₄, ?_⟩
    rw [Script.commands, ← cons_append, feedAll_append, e₁, feedAll_append, e₂, feedAll_cons, e₃, e₄,
      execTrace_ifElse hl.1 hl.2.1 hl.2.2]
    cases hc : nshCmdenabled sh.np with
    | false => simp [h₃.enabled, hc]
    | true => by_cases hres : ρ sh.trace.length = inverted <;> simp [h₃.enabled, hc, branchTaken, hres]

/-! ## The loop of `nsh_script` -/

theorem runScript_eq_feedAll {prog : List (List String)} (h : ∀ c ∈ prog, c.head? ≠ some "done") {n : Nat}
    (hn : n ≤ prog.length) :
    runScript nestdepth prog ρ n = Shell.init.feedAll nestdepth ρ (prog.take n) ∧
      (runScript nestdepth prog ρ n).np.fpos = n := by
  induction n with
  | zero => exact ⟨rfl, rfl⟩
  | succ n ih =>
    obtain ⟨ih, hpos⟩ := ih (by omega)
    have hget : prog[n]? = some prog[n] := getElem?_eq_getElem (by omega)
    have hstep : runScript nestdepth prog ρ (n + 1) = (runScript nestdepth prog ρ n).feed nestdepth ρ prog[n] := by
      rw [runScript, Shell.step, hpos, hget]
    refine ⟨?_, ?_⟩
    · rw [hstep, ih, take_add_one, hget, feedAll_append]
      rfl
    · rw [hstep, Shell.feed]
      exact (fpos_parse _ (h _ (getElem_mem _)) _).trans (congrArg (· + 1) hpos)

theorem lead_notDone {inline : Bool} {kw : String} {cmds : List (List String)} (hkw : kw ≠ "done")
    (h : ∀ c ∈ cmds, c.head? ≠ some "done") : ∀ c ∈ lead inline kw cmds, c.head? ≠ some "done" := by
  cases cmds with
  | nil => simpa [lead] using hkw
  | cons a as =>
    cases inline with
    | false => exact forall_mem_cons.mpr ⟨by simpa using hkw, h⟩
    | true => exact forall_mem_cons.mpr ⟨by simpa using hkw, (forall_mem_cons.mp h).2⟩

theorem commands_notDone (hl : s.LoopFree) (hp : s.Plain) : ∀ c ∈ s.commands, c.head? ≠ some "done" := by
  induction s with
  | nil => simp [Script.commands]
  | cmd argv rest ih =>
    intro c hc
    rcases mem_cons.1 hc with rfl | hc
    · exact hp.1.head_ne (by decide)
    · exact ih hl hp.2 c hc
  | brk => exact hl.elim
  | loop => exact hl.elim
  | ifThen inverted cond inline thn rest iht ihr =>
    intro c hc
    simp only [Script.commands, mem_cons, mem_append] at hc
    rcases hc with rfl | hc | rfl | hc
    · simp [ifWords]
    · exact lead_notDone (by decide) (iht hl.1 hp.2.1) c hc
    · simp
    · exact ihr hl.2 hp.2.2 c hc
  | ifElse inverted cond inline thn inline' els rest iht ihe ihr =>
    intro c hc
    simp only [Script.commands, mem_cons, mem_append] at hc
    rcases hc with rfl | hc | hc | rfl | hc
    · simp [ifWords]
    · exact lead_notDone (by decide) (iht hl.1 hp.2.1) c hc
    · exact lead_notDone (by decide) (ihe hl.2.1 hp.2.2.1) c hc
    · simp
    · exact ihr hl.2.2 hp.2.2.2 c hc

/-! ## A conditional behind a keyword

If a script has one, some results of the commands in front of it lead there. -/

variable (nestdepth ρ) in
theorem trace_feedAll (sh : Shell) (cmds : List (List String)) :
    ∃ l, (sh.feedAll nestdepth ρ cmds).trace = sh.trace ++ l := by
  induction cmds generalizing sh with
  | nil => exact ⟨[], by simp⟩
  | cons c cs ih =>
    obtain ⟨l, hl⟩ := ih (sh.feed nestdepth ρ c)
    exact ⟨_, by rw [feedAll_cons, hl, Shell.feed, append_assoc]⟩

theorem parse_not_executed {words : List String} {result : Bool}
    (h : (nshParseCommand nestdepth np words result).executed = none) (result' : Bool) :
    nshParseCommand nestdepth np words result' = nshParseCommand nestdepth np words result := by
  unfold nshParseCommand at h ⊢
  split
  case h_1 => rfl
  case h_2 np₁ words₁ he =>
    split
    case h_1 => rfl
    case h_2 np₂ argv hi =>
      simp only [he, hi] at h
      split_ifs at h ⊢
      rfl

theorem feedAll_congr {ρ' : Nat → Bool} {sh : Shell} {cmds : List (List String)}
    (h : ∀ i < (sh.feedAll nestdepth ρ cmds).trace.length, ρ' i = ρ i) :
    sh.feedAll nestdepth ρ' cmds = sh.feedAll nestdepth ρ cmds := by
  induction cmds generalizing sh with
  | nil => rfl
  | cons c cs ih =>
    have hc : sh.feed nestdepth ρ' c = sh.feed nestdepth ρ c := by
      have hp : sh.parse nestdepth ρ' c = sh.parse nestdepth ρ c := by
        cases he : (sh.parse nestdepth ρ c).executed with
        | none => exact parse_not_executed he _
        | some argv =>
          obtain ⟨l, hl⟩ := trace_feedAll nestdepth ρ (sh.feed nestdepth ρ c) cs
          have hlen : sh.trace.length < (sh.feedAll nestdepth ρ (c :: cs)).trace.length := by
            rw [feedAll_cons, hl]
            simp only [Shell.feed, he, Option.toList_some, length_append, length_singleton]
            omega
          simp only [Shell.parse, h _ hlen]
      simp only [Shell.feed, hp]
    rw [feedAll_cons, hc]
    exact ih h

/-- Some results of commands that are not yet executed make the shell execute `if`. -/
def Reveals (nestdepth : Nat) (ρ₀ : Nat → Bool) (sh : Shell) (cmds : List (List String)) : Prop :=
  ∃ ρ, (∀ i < sh.trace.length, ρ i = ρ₀ i) ∧
    ∃ c ∈ (sh.feedAll nestdepth ρ cmds).trace, c.head? = some "if"

section Reveals

variable {ρ₀ : Nat → Bool} {sh : Shell} {cmds cmds' : List (List String)}

theorem Reveals.left (h : Reveals nestdepth ρ₀ sh cmds) : Reveals nestdepth ρ₀ sh (cmds ++ cmds') := by
  obtain ⟨ρ, hρ, c, hc, hif⟩ := h
  obtain ⟨l, hl⟩ := trace_feedAll nestdepth ρ (sh.feedAll nestdepth ρ cmds) cmds'
  exact ⟨ρ, hρ, c, by rw [feedAll_append, hl]; exact mem_append_left _ hc, hif⟩

theorem Reveals.right (h : Reveals nestdepth ρ₀ (sh.feedAll nestdepth ρ₀ cmds) cmds') :
    Reveals nestdepth ρ₀ sh (cmds ++ cmds') := by
  obtain ⟨ρ, hρ, hc⟩ := h
  obtain ⟨l, hl⟩ := trace_feedAll nestdepth ρ₀ sh cmds
  refine ⟨ρ, fun i hi => hρ i (by rw [hl, length_append]; omega), ?_⟩
  rwa [feedAll_append, feedAll_congr hρ]

theorem Reveals.choose (result : Bool)
    (h : Reveals nestdepth (Function.update ρ₀ sh.trace.length result) sh cmds) : Reveals nestdepth ρ₀ sh cmds := by
  obtain ⟨ρ, hρ, hc⟩ := h
  exact ⟨ρ, fun i hi => by rw [hρ i hi, Function.update_of_ne (Nat.ne_of_lt hi)], hc⟩

/-- Where the commands of the script are enabled, some results lead to an `if`. -/
def Script.Reveals (nestdepth : Nat) (s : Script) : Prop :=
  ∀ (ρ₀ : Nat → Bool) (sh : Shell), sh.np.Ready → nshCmdenabled sh.np = true →
    sh.np.iendx + s.ifDepth ≤ nestdepth - 1 → Nsh.Reveals nestdepth ρ₀ sh s.commands

theorem reveals_branch {branch : Script} {kw : String} {before after : ItefState} {inverted result inline : Bool}
    (hk : BranchKeyword nestdepth kw before after) (hp : branch.Plain) (hl : branch.LoopFree) (hr : np.Ready)
    (hc : nshCmdenabled np = true) (ht : branchTaken inverted result after = true)
    (hs : Same (np.pushIf (ifEntry true inverted result before)) sh.np)
    (hd : np.iendx + (branch.ifDepth + 1) ≤ nestdepth - 1)
    (hb : inline = true ∧ branch.StartsIf ∨ branch.Reveals nestdepth) :
    Reveals nestdepth ρ₀ sh (lead inline kw branch.commands) := by
  have hen : nshCmdenabled (np.pushIf (ifEntry true inverted result after)) = true := by
    have h := enabled_branch np inverted result after
    rwa [hc, ht] at h
  by_cases hif : inline = true ∧ branch.StartsIf
  · obtain ⟨rfl, hif⟩ := hif
    obtain ⟨inv, cond, cs, hcs⟩ := hif.commands
    refine ⟨ρ₀, fun _ _ => rfl, ifWords inv cond, ?_, rfl⟩
    obtain ⟨l, hl⟩ := trace_feedAll nestdepth ρ₀ (sh.feed nestdepth ρ₀ (kw :: ifWords inv cond)) cs
    rw [hcs, lead, if_pos rfl, feedAll_cons, hl, trace_lead_if hk hs hr rfl hen]
    simp
  · obtain ⟨n₁, h₁, e₁⟩ := feed_lead hk hs hr rfl
      fun hi => head_free hp (fun h => hif ⟨hi, h⟩) hl.notStartsLoop
    have hd₁ : n₁.iendx = np.iendx + 1 := h₁.iendx
    have hr₁ : n₁.Ready := h₁.ready ⟨hr.notWhile, hr.notUntil, by simpa [ifEntry] using hk.notIf⟩
    obtain ⟨ρ, hρ, hrev⟩ := hb.resolve_left hif ρ₀ ⟨n₁, sh.trace, sh.errors⟩ hr₁
      (h₁.enabled.trans hen) (by simp only [hd₁]; omega)
    exact ⟨ρ, hρ, by rwa [e₁]⟩

variable {thn els rest : Script} {cond : List String} {inline inline' : Bool}

theorem reveals_then (inverted : Bool) (hcond : Plain cond) (hp : thn.Plain) (hl : thn.LoopFree) (hr : sh.np.Ready)
    (hc : nshCmdenabled sh.np = true) (hd : sh.np.iendx + (thn.ifDepth + 1) ≤ nestdepth - 1)
    (hb : inline = true ∧ thn.StartsIf ∨ thn.Reveals nestdepth) :
    Reveals nestdepth ρ₀ sh (ifWords inverted cond :: (lead inline "then" thn.commands ++ cmds')) := by
  refine Reveals.choose inverted ?_
  obtain ⟨n₁, h₁, e₁⟩ := feed_if nestdepth (Function.update ρ₀ sh.trace.length inverted) inverted hr hcond (by omega)
  rw [hc, Function.update_self] at h₁
  rw [← singleton_append]
  refine Reveals.right (Reveals.left ?_)
  rw [feedAll_cons, feedAll_nil, e₁]
  exact reveals_branch (branchKeyword_then nestdepth) hp hl hr hc (by simp [branchTaken]) h₁ hd hb

theorem reveals_else (inverted : Bool) (hcond : Plain cond) (ht : thn.LoopFree ∧ thn.Plain ∧ thn.InlineOk)
    (hft : inline = true → ¬ thn.StartsIf) (hp : els.Plain) (hl : els.LoopFree) (hr : sh.np.Ready)
    (hc : nshCmdenabled sh.np = true) (hd : sh.np.iendx + (max thn.ifDepth els.ifDepth + 1) ≤ nestdepth - 1)
    (hb : inline' = true ∧ els.StartsIf ∨ els.Reveals nestdepth) :
    Reveals nestdepth ρ₀ sh (ifWords inverted cond ::
      (lead inline "then" thn.commands ++ (lead inline' "else" els.commands ++ cmds'))) := by
  refine Reveals.choose (!inverted) ?_
  have hthn : Follows nestdepth (Function.update ρ₀ sh.trace.length (!inverted)) 0 thn :=
    feed_commands ht.1 ht.2.1 ht.2.2
  obtain ⟨n₁, h₁, e₁⟩ := feed_then inverted hthn hr hcond
    (fun h => head_free ht.2.1 (hft h) ht.1.notStartsLoop) (by omega)
  rw [hc, Function.update_self] at h₁
  rw [← cons_append]
  refine Reveals.right (Reveals.left ?_)
  rw [e₁]
  exact reveals_branch (branchKeyword_else nestdepth) hp hl hr hc (by simp [branchTaken]) h₁ (by omega) hb

theorem reveals_rest {s : Script} (hs : s.LoopFree ∧ s.Plain ∧ s.InlineOk) (hr : sh.np.Ready)
    (hc : nshCmdenabled sh.np = true) (hd : sh.np.iendx + max s.ifDepth rest.ifDepth ≤ nestdepth - 1)
    (hrest : rest.Reveals nestdepth) : Reveals nestdepth ρ₀ sh (s.commands ++ rest.commands) := by
  have hf : Follows nestdepth ρ₀ 0 s := feed_commands hs.1 hs.2.1 hs.2.2
  obtain ⟨n₁, h₁, e₁⟩ := hf sh hr (by omega)
  refine Reveals.right ?_
  rw [e₁]
  exact hrest ρ₀ _ (h₁.ready hr) (h₁.enabled.trans hc) (by simp only [h₁.iendx]; omega)

end Reveals

theorem reveals_commands (hl : s.LoopFree) (hp : s.Plain) (hi : ¬ s.InlineOk) : s.Reveals nestdepth := by
  induction s with
  | nil => exact absurd trivial hi
  | brk => exact hl.elim
  | loop => exact hl.elim
  | cmd argv rest ih =>
    intro ρ₀ sh hr hc hd
    exact reveals_rest (s := .cmd argv .nil) ⟨trivial, ⟨hp.1, trivial⟩, trivial⟩ hr hc
      (by simpa [Script.ifDepth] using hd) (ih hl hp.2 hi)
  | ifThen inverted cond inline thn rest iht ihr =>
    intro ρ₀ sh hr hc hd
    have hd' : sh.np.iendx + max (thn.ifDepth + 1) rest.ifDepth ≤ nestdepth - 1 := hd
    by_cases hthn : inline = true ∧ thn.StartsIf ∨ ¬ thn.InlineOk
    · exact reveals_then inverted hp.1 hp.2.1 hl.1 hr hc (by omega) (hthn.imp_right (iht hl.1 hp.2.1))
    obtain ⟨hft, hit⟩ := not_or.1 hthn
    have hone : (Script.ifThen inverted cond inline thn .nil).InlineOk :=
      ⟨fun h => ⟨fun h' => hft ⟨h, h'⟩, hl.1.notStartsLoop⟩, not_not.1 hit, trivial⟩
    have hrest : ¬ rest.InlineOk := fun h => hi ⟨hone.1, hone.2.1, h⟩
    have happ : (Script.ifThen inverted cond inline thn rest).commands =
        (Script.ifThen inverted cond inline thn .nil).commands ++ rest.commands := by simp [Script.commands]
    rw [happ]
    exact reveals_rest ⟨⟨hl.1, trivial⟩, ⟨hp.1, hp.2.1, trivial⟩, hone⟩ hr hc
      (by simp only [Script.ifDepth]; omega) (ihr hl.2 hp.2.2 hrest)
  | ifElse inverted cond inline thn inline' els rest iht ihe ihr =>
    intro ρ₀ sh hr hc hd
    have hd' : sh.np.iendx + max (max thn.ifDepth els.ifDepth + 1) rest.ifDepth ≤ nestdepth - 1 := hd
    by_cases hthn : inline = true ∧ thn.StartsIf ∨ ¬ thn.InlineOk
    · exact reveals_then inverted hp.1 hp.2.1 hl.1 hr hc (by omega) (hthn.imp_right (iht hl.1 hp.2.1))
    obtain ⟨hft, hit⟩ := not_or.1 hthn
    by_cases hels : inline' = true ∧ els.StartsIf ∨ ¬ els.InlineOk
    · exact reveals_else inverted hp.1 ⟨hl.1, hp.2.1, not_not.1 hit⟩ (fun h h' => hft ⟨h, h'⟩) hp.2.2.1 hl.2.1 hr hc
        (by omega) (hels.imp_right (ihe hl.2.1 hp.2.2.1))
    obtain ⟨hfe, hie⟩ := not_or.1 hels
    have hone : (Script.ifElse inverted cond inline thn inline' els .nil).InlineOk :=
      ⟨fun h => ⟨fun h' => hft ⟨h, h'⟩, hl.1.notStartsLoop⟩, fun h => ⟨fun h' => hfe ⟨h, h'⟩, hl.2.1.notStartsLoop⟩,
        not_not.1 hit, not_not.1 hie, trivial⟩
    have hrest : ¬ rest.InlineOk := fun h => hi ⟨hone.1, hone.2.1, hone.2.2.1, hone.2.2.2.1, h⟩
    have happ : (Script.ifElse inverted cond inline thn inline' els rest).commands =
        (Script.ifElse inverted cond inline thn inline' els .nil).commands ++ rest.commands := by simp [Script.commands]
    rw [happ]
    exact reveals_rest ⟨⟨hl.1, hl.2.1, trivial⟩, ⟨hp.1, hp.2.1, hp.2.2.1, trivial⟩, hone⟩ hr hc
      (by simp only [Script.ifDepth]; omega) (ihr hl.2.2 hp.2.2.2 hrest)

theorem exec_plain (hl : s.LoopFree) (hp : s.Plain) (fuel : Nat) {t : Trace} (ht : ∀ c ∈ t, Plain c) :
    ∀ c ∈ s.execTrace ρ fuel t, Plain c := by
  have hsnoc : ∀ {t : Trace} {argv}, (∀ c ∈ t, Plain c) → Plain argv → ∀ c ∈ t ++ [argv], Plain c := by
    intro t argv ht ha c hc
    rcases mem_append.1 hc with hc | hc
    · exact ht c hc
    · rw [mem_singleton.1 hc]
      exact ha
  induction s generalizing t with
  | nil => exact ht
  | brk => exact hl.elim
  | loop => exact hl.elim
  | cmd argv rest ih => exact ih hl hp.2 (hsnoc ht hp.1)
  | ifThen inverted cond inline thn rest iht ihr =>
    rw [execTrace_ifThen hl.1 hl.2]
    refine ihr hl.2 hp.2.2 ?_
    split_ifs
    · exact iht hl.1 hp.2.1 (hsnoc ht hp.1)
    · exact hsnoc ht hp.1
  | ifElse inverted cond inline thn inline' els rest iht ihe ihr =>
    rw [execTrace_ifElse hl.1 hl.2.1 hl.2.2]
    refine ihr hl.2.2 hp.2.2.2 ?_
    split_ifs
    · exact iht hl.1 hp.2.1 (hsnoc ht hp.1)
    · exact ihe hl.2.1 hp.2.2.1 (hsnoc ht hp.1)

/-- A script of conditionals is executed as its meaning says, whatever its commands return, exactly if no conditional
stands on the line of the `then` or `else` in front of it. -/
theorem itef_iff (d : Depth) (s : Script) (hl : s.LoopFree) (hp : s.Plain) (hd : s.ifDepth < d.nestdepth) :
    (∀ ρ fuel,
      s.exec ρ fuel [] = some ((runScript d.nestdepth s.commands ρ s.commands.length).trace, false) ∧
      (runScript d.nestdepth s.commands ρ s.commands.length).np.iendx = Parser.init.iendx) ↔ s.InlineOk := by
  have hrun : ∀ ρ, runScript d.nestdepth s.commands ρ s.commands.length =
      Shell.init.feedAll d.nestdepth ρ s.commands := fun ρ => by
    rw [(runScript_eq_feedAll (commands_notDone hl hp) .refl).1, take_length]
  have hr : Shell.init.np.Ready := ⟨by decide, by decide, by decide⟩
  have hd' : Shell.init.np.iendx + s.ifDepth ≤ d.nestdepth - 1 := by
    simp only [Shell.init, Parser.init]
    omega
  refine ⟨fun h => ?_, fun hi ρ fuel => ?_⟩
  · by_contra hi
    obtain ⟨ρ, -, c, hc, hif⟩ := reveals_commands hl hp hi (fun _ => false) Shell.init hr rfl hd'
    rw [← hrun, ← (Prod.mk.inj (Option.some.inj ((exec_loopFree hl 0 []).symm.trans (h ρ 0).1))).1] at hc
    exact (exec_plain hl hp 0 (by simp) c hc).head_ne (by decide) hif
  · have hf : Follows d.nestdepth ρ fuel s := feed_commands hl hp hi
    obtain ⟨n₁, h₁, e₁⟩ := hf Shell.init hr hd'
    rw [hrun, e₁]
    exact ⟨exec_loopFree hl fuel [], h₁.iendx⟩

/-- `if a; then if ! b; then c; fi; else d; fi; e`. -/
def nestedScript (inline : Bool) : Script :=
  .ifElse false ["a"] inline (.ifThen true ["b"] true (.cmd ["c"] .nil) .nil) true (.cmd ["d"] .nil)
    (.cmd ["e"] .nil)

theorem itef_iff_nested :
    (nestedScript false).ifDepth < 3 ∧
      ((∀ ρ fuel,
        (nestedScript false).exec ρ fuel [] =
          some ((runScript 3 (nestedScript false).commands ρ (nestedScript false).commands.length).trace, false) ∧
        (runScript 3 (nestedScript false).commands ρ (nestedScript false).commands.length).np.iendx =
          Parser.init.iendx) ↔ (nestedScript false).InlineOk) :=
  ⟨by decide, itef_iff ⟨3, by decide, by decide⟩ (nestedScript false) (by simp [nestedScript, Script.LoopFree])
    (by decide) (by decide)⟩

theorem if_behind_then :
    (nestedScript true).LoopFree ∧ (nestedScript true).Plain ∧ (nestedScript true).ifDepth < 3 ∧
      (runScript 3 (nestedScript true).commands (fun _ => false) (nestedScript true).commands.length).trace =
        [["a"], ["if", "!", "b"], ["e"]] ∧
      (nestedScript true).exec (fun _ => false) 0 [] = some ([["a"], ["b"], ["e"]], false) :=
  ⟨by simp [nestedScript, Script.LoopFree], by decide⟩

end NuttxApps.Nsh
