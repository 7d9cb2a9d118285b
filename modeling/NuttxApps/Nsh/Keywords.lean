import NuttxApps.Nsh.Script

/-!
# What `nsh_parse_command` does with each command of a script

One equation for each kind of command, from a parser in the state the command expects.
-/

namespace NuttxApps.Nsh

variable {nestdepth : Nat} {np : Parser} {words argv cond : List String} {result : Bool}

structure Parser.Ready (np : Parser) : Prop where
  notWhile : np.lp.state ≠ .loopWhile
  notUntil : np.lp.state ≠ .loopUntil
  notIf : np.ie.state ≠ .itefIf

def Free (kws : List String) (words : List String) : Prop := ∀ w ∈ words.head?, w ∉ kws

theorem free_nil (kws : List String) : Free kws [] := by simp [Free]

theorem Plain.head_ne (h : Plain argv) {w : String} (hw : w ∈ reserved) : argv.head? ≠ some w := by
  rintro hs
  cases argv with
  | nil => exact h
  | cons a args =>
    obtain rfl : a = w := by simpa using hs
    exact h hw

theorem Plain.ne_nil (h : Plain argv) : argv ≠ [] := by
  rintro rfl
  exact h

theorem Plain.free (h : Plain argv) {kws : List String} (hk : kws ⊆ reserved) : Free kws argv :=
  fun _ hw hm => h.head_ne (hk hm) hw

theorem loopKeywords_subset : loopKeywords ⊆ reserved := by decide

theorem itefKeywords_subset : itefKeywords ⊆ reserved := by decide

theorem nshLoop_free (h : Free loopKeywords words) (hw : np.lp.state ≠ .loopWhile) (hu : np.lp.state ≠ .loopUntil) :
    nshLoop nestdepth np words = (np, .ok words) := by
  cases words with
  | nil => rfl
  | cons cmd rest =>
    have hc := h cmd rfl
    simp only [loopKeywords, List.mem_cons, List.not_mem_nil, not_or] at hc
    simp [nshLoop, hc, hw, hu]

theorem nshItef_free (h : Free itefKeywords words) (hi : np.ie.state ≠ .itefIf) :
    nshItef nestdepth np words = (np, .ok words) := by
  cases words with
  | nil => rfl
  | cons cmd rest =>
    have hc := h cmd rfl
    simp only [itefKeywords, List.mem_cons, List.not_mem_nil, not_or] at hc
    simp [nshItef, hc, hi]

variable (isUntil : Bool) (inverted : Bool) {kws : List String} {s : Script}

theorem head_free_of (hp : s.Plain) (hk : kws ⊆ reserved) (hb : "break" ∉ kws)
    (hi : s.StartsIf → "if" ∉ kws) (hl : ¬ s.StartsLoop) : ∀ c ∈ s.commands.head?, Free kws c := by
  intro c hc
  cases s with
  | nil => simp [Script.commands] at hc
  | cmd argv rest =>
    obtain rfl : argv = c := by simpa [Script.commands] using hc
    exact hp.1.free hk
  | brk rest =>
    obtain rfl : ["break"] = c := by simpa [Script.commands] using hc
    simpa [Free] using hb
  | ifThen inverted cond =>
    obtain rfl : ifWords inverted cond = c := by simpa [Script.commands] using hc
    simpa [Free, ifWords] using hi trivial
  | ifElse inverted cond =>
    obtain rfl : ifWords inverted cond = c := by simpa [Script.commands] using hc
    simpa [Free, ifWords] using hi trivial
  | loop => exact absurd trivial hl

theorem head_free_loop (hp : s.Plain) (hl : ¬ s.StartsLoop) : ∀ c ∈ s.commands.head?, Free loopKeywords c :=
  head_free_of hp loopKeywords_subset (by decide) (fun _ => by decide) hl

theorem head_free (hp : s.Plain) (hi : ¬ s.StartsIf) (hl : ¬ s.StartsLoop) :
    ∀ c ∈ s.commands.head?, Free loopKeywords c ∧ Free itefKeywords c := fun c hc =>
  ⟨head_free_loop hp hl c hc, head_free_of hp itefKeywords_subset (by decide) (fun h => absurd h hi) hl c hc⟩

section Stacks

variable (e : LoopEntry) (e' : ItefEntry)

def Parser.pushLoop (np : Parser) (e : LoopEntry) : Parser :=
  ({ np with jump := false, lpndx := np.lpndx + 1 } : Parser).setLp e

def Parser.pushIf (np : Parser) (e : ItefEntry) : Parser := ({ np with iendx := np.iendx + 1 } : Parser).setIe e

@[simp] theorem lp_setLp : (np.setLp e).lp = e := by simp [Parser.lp, Parser.setLp]

@[simp] theorem ie_setLp : (np.setLp e).ie = np.ie := rfl

@[simp] theorem ie_setIe : (np.setIe e').ie = e' := by simp [Parser.ie, Parser.setIe]

@[simp] theorem lp_setIe : (np.setIe e').lp = np.lp := rfl

@[simp] theorem lp_pushLoop : (np.pushLoop e).lp = e := lp_setLp e

@[simp] theorem ie_pushLoop : (np.pushLoop e).ie = np.ie := rfl

@[simp] theorem ie_pushIf : (np.pushIf e').ie = e' := ie_setIe e'

@[simp] theorem lp_pushIf : (np.pushIf e').lp = np.lp := rfl

end Stacks

theorem parse_nil : nshParseCommand nestdepth np [] result = ⟨np, true, none, none⟩ := rfl

theorem parse_free (hr : np.Ready) (hl : Free loopKeywords argv) (hi : Free itefKeywords argv) (hne : argv ≠ []) :
    nshParseCommand nestdepth np argv result =
      if nshCmdenabled np then
        ⟨(nshExecute np argv result).1, (nshExecute np argv result).2, some argv, none⟩
      else ⟨np, true, none, none⟩ := by
  simp only [nshParseCommand, nshLoop_free hl hr.notWhile hr.notUntil, nshItef_free hi hr.notIf, hne, false_or]
  cases nshCmdenabled np <;> rfl

theorem nshSaveresult_ready (hr : np.Ready) : nshSaveresult np result = ({ np with fail := result }, !result) := by
  simp [nshSaveresult, hr.notWhile, hr.notUntil, hr.notIf]

theorem parse_plain (hr : np.Ready) (h : Plain argv) :
    nshParseCommand nestdepth np argv result =
      if nshCmdenabled np then ⟨{ np with fail := result }, !result, some argv, none⟩
      else ⟨np, true, none, none⟩ := by
  rw [parse_free hr (h.free loopKeywords_subset) (h.free itefKeywords_subset) h.ne_nil, nshExecute,
    if_neg (h.head_ne (by decide)), nshSaveresult_ready hr]

theorem parse_break (hr : np.Ready) :
    nshParseCommand nestdepth np ["break"] result =
      if nshCmdenabled np then
        ⟨(nshSaveresult (cmdBreak np) false).1, (nshSaveresult (cmdBreak np) false).2, some ["break"], none⟩
      else ⟨np, true, none, none⟩ := by
  rw [parse_free hr (by simp [Free, loopKeywords]) (by simp [Free, itefKeywords]) (by simp)]
  rfl

theorem ifCondition_words (h : Plain cond) :
    ifCondition (if inverted then "!" :: cond else cond) = (inverted, cond) := by
  have hb : cond.head? ≠ some "!" := h.head_ne (by decide)
  cases inverted <;> simp [ifCondition, hb]

theorem nshSaveresult_pushIf (hr : np.Ready) {e : ItefEntry} (he : e.state = .itefIf) :
    nshSaveresult (np.pushIf e) result =
      (({ np with fail := false } : Parser).pushIf { e with ifcond := e.inverted ^^ result }, true) := by
  simp [nshSaveresult, hr.notWhile, hr.notUntil, he]
  simp [Parser.pushIf, Parser.setIe]

theorem parse_if (hr : np.Ready) (h : Plain cond) (hd : np.iendx < nestdepth - 1) :
    nshParseCommand nestdepth np (ifWords inverted cond) result =
      if nshCmdenabled np then
        ⟨({ np with fail := false } : Parser).pushIf ⟨inverted ^^ result, false, inverted, .itefIf⟩,
          true, some cond, none⟩
      else ⟨np.pushIf ⟨false, true, inverted, .itefIf⟩, true, none, none⟩ := by
  have hx : cond.head? ≠ some "" := h.head_ne (by decide)
  have hb : cond.head? ≠ some "break" := h.head_ne (by decide)
  have hl : nshLoop nestdepth np (ifWords inverted cond) = (np, .ok (ifWords inverted cond)) :=
    nshLoop_free (by simp [Free, ifWords, loopKeywords]) hr.notWhile hr.notUntil
  have hi : nshItef nestdepth np (ifWords inverted cond) =
      (np.pushIf ⟨false, !nshCmdenabled np, inverted, .itefIf⟩, .ok cond) := by
    simp [nshItef, ifWords, ifCondition_words inverted h, hx, h.ne_nil, hr.notIf, Parser.pushIf, Nat.not_le.2 hd]
  have he : nshCmdenabled (np.pushIf ⟨false, !nshCmdenabled np, inverted, .itefIf⟩) = nshCmdenabled np := by
    cases hc : nshCmdenabled np <;> simp_all [nshCmdenabled, nshLoopEnabled, nshItefEnabled]
  simp only [nshParseCommand, hl, hi, he, h.ne_nil, false_or]
  cases nshCmdenabled np with
  | false => rfl
  | true => simp [nshExecute, hb, nshSaveresult_pushIf hr]

structure BranchKeyword (nestdepth : Nat) (kw : String) (before after : ItefState) : Prop where
  notLoop : kw ∉ loopKeywords
  notIf : after ≠ .itefIf
  itef : ∀ (np : Parser) (words : List String), np.ie.state = before →
    nshItef nestdepth np (kw :: words) = (np.setIe { np.ie with state := after }, .ok words)

theorem branchKeyword_then (nestdepth : Nat) : BranchKeyword nestdepth "then" .itefIf .itefThen :=
  ⟨by decide, by decide, fun np words h => by simp [nshItef, h]⟩

theorem branchKeyword_else (nestdepth : Nat) : BranchKeyword nestdepth "else" .itefThen .itefElse :=
  ⟨by decide, by decide, fun np words h => by simp [nshItef, h]⟩

section Branch

variable {kw : String} {before after : ItefState} (hk : BranchKeyword nestdepth kw before after)
  (hw : np.lp.state ≠ .loopWhile) (hu : np.lp.state ≠ .loopUntil) (hi : np.ie.state = before)
include hk hw hu hi

theorem parse_branch (hl : Free loopKeywords words) (hf : Free itefKeywords words) :
    nshParseCommand nestdepth np (kw :: words) result =
      nshParseCommand nestdepth (np.setIe { np.ie with state := after }) words result := by
  have h₀ : nshLoop nestdepth np (kw :: words) = _ := nshLoop_free (by simpa [Free] using hk.notLoop) hw hu
  have h₁ : nshLoop nestdepth (np.setIe { np.ie with state := after }) words = (_, .ok words) :=
    nshLoop_free hl hw hu
  have h₂ : nshItef nestdepth (np.setIe { np.ie with state := after }) words = (_, .ok words) :=
    nshItef_free hf (by simpa using hk.notIf)
  simp only [nshParseCommand, h₀, hk.itef np words hi, h₁, h₂]

theorem executed_branch (hc : nshCmdenabled (np.setIe { np.ie with state := after }) = true) (hne : words ≠ []) :
    (nshParseCommand nestdepth np (kw :: words) result).executed = some words := by
  have h₀ : nshLoop nestdepth np (kw :: words) = _ := nshLoop_free (by simpa [Free] using hk.notLoop) hw hu
  simp [nshParseCommand, h₀, hk.itef np words hi, hc, hne]

end Branch

theorem parse_fi (hr : np.Ready) (hi : np.ie.state = .itefThen ∨ np.ie.state = .itefElse) (hd : 0 < np.iendx) :
    nshParseCommand nestdepth np ["fi"] result = ⟨{ np with iendx := np.iendx - 1 }, true, none, none⟩ := by
  have h₀ : nshLoop nestdepth np ["fi"] = (np, .ok ["fi"]) :=
    nshLoop_free (by simp [Free, loopKeywords]) hr.notWhile hr.notUntil
  have h₁ : nshItef nestdepth np ["fi"] = ({ np with iendx := np.iendx - 1 }, .ok []) := by
    rcases hi with hi | hi <;> simp [nshItef, hi, Nat.ne_of_gt hd]
  simp only [nshParseCommand, h₀, h₁, true_or, if_true]

theorem nshSaveresult_pushLoop {e : LoopEntry}
    (he : e.state = if isUntil then .loopUntil else .loopWhile) :
    nshSaveresult (np.pushLoop e) result =
      (({ np with fail := false } : Parser).pushLoop { e with enable := result == isUntil }, true) := by
  cases isUntil <;> simp [nshSaveresult, he] <;> simp [Parser.pushLoop, Parser.setLp]

/-- The condition of a loop is executed if the innermost conditional is enabled,
whatever the loop around it says. -/
theorem parse_loop (hr : np.Ready) (h : Plain cond) (hd : np.lpndx < nestdepth - 1) :
    nshParseCommand nestdepth np (loopWords isUntil cond) result =
      if nshItefEnabled np then
        ⟨({ np with fail := false } : Parser).pushLoop
          ⟨result == isUntil, if isUntil then .loopUntil else .loopWhile, np.iendx, np.foffs⟩, true, some cond, none⟩
      else
        ⟨np.pushLoop ⟨false, if isUntil then .loopUntil else .loopWhile, np.iendx, np.foffs⟩, true, none, none⟩ := by
  have hx : cond.head? ≠ some "" := h.head_ne (by decide)
  have hb : cond.head? ≠ some "break" := h.head_ne (by decide)
  let e : LoopEntry := ⟨nshCmdenabled np, if isUntil then .loopUntil else .loopWhile, np.iendx, np.foffs⟩
  have hl : nshLoop nestdepth np (loopWords isUntil cond) = (np.pushLoop e, .ok cond) := by
    cases isUntil <;>
      simp [nshLoop, loopWords, hx, h.ne_nil, hr.notWhile, hr.notUntil, hr.notIf, Parser.pushLoop, Nat.not_le.2 hd, e]
  have hi : nshItef nestdepth (np.pushLoop e) cond = (np.pushLoop e, .ok cond) :=
    nshItef_free (h.free itefKeywords_subset) hr.notIf
  have he : nshCmdenabled (np.pushLoop e) = nshItefEnabled np := by
    cases isUntil <;> simp [nshCmdenabled, nshLoopEnabled, nshItefEnabled, e]
  simp only [nshParseCommand, hl, hi, he, h.ne_nil, false_or]
  cases hc : nshItefEnabled np with
  | false => simp [e, nshCmdenabled, hc]
  | true =>
    have hs : nshSaveresult (np.pushLoop e) result = _ := nshSaveresult_pushLoop isUntil rfl
    simp [nshExecute, hb, hs, e]

theorem parse_do (hs : np.lp.state = .loopWhile ∨ np.lp.state = .loopUntil) (hl : Free loopKeywords words) :
    nshParseCommand nestdepth np ("do" :: words) result =
      nshParseCommand nestdepth (np.setLp { np.lp with state := .loopDo }) words result := by
  have h₀ : nshLoop nestdepth np ("do" :: words) = (np.setLp { np.lp with state := .loopDo }, .ok words) := by
    rcases hs with hs | hs <;> simp [nshLoop, hs]
  have h₁ : nshLoop nestdepth (np.setLp { np.lp with state := .loopDo }) words = (_, .ok words) :=
    nshLoop_free hl (by simp) (by simp)
  simp only [nshParseCommand, h₀, h₁]

theorem parse_done (hs : np.lp.state = .loopDo) (hd : 0 < np.lpndx) :
    nshParseCommand nestdepth np ["done"] result =
      ⟨if np.lp.enable then
          { np with
            fpos := np.lp.topoffs
            jump := true
            lpndx := np.lpndx - 1
            lpstate := Function.update np.lpstate np.lpndx { np.lp with state := .loopNormal } }
        else
          { np with
            lpndx := np.lpndx - 1
            lpstate := Function.update np.lpstate np.lpndx { np.lp with enable := true, state := .loopNormal } },
        true, none, none⟩ := by
  cases he : np.lp.enable <;> simp [nshParseCommand, nshLoop, nshItef, hs, Nat.ne_of_gt hd, he, Parser.setLp]

end NuttxApps.Nsh
