import Mathlib.Tactic.SplitIfs
import NuttxApps.Nsh.Keywords

/-!
# The commands of a script, one by one

What the shell is behind each command, up to the entries of its stacks that no longer matter (`Same`). Only `done` goes
anywhere else than to the next command (`fpos_parse`).
-/

namespace NuttxApps.Nsh

variable {nestdepth : Nat} {ρ : Nat → Bool}

/-- The same stacks, up to the entries above the innermost ones. -/
structure Same (np np' : Parser) : Prop where
  lpndx : np'.lpndx = np.lpndx
  lpstate : ∀ l ≤ np.lpndx, np'.lpstate l = np.lpstate l
  iendx : np'.iendx = np.iendx
  iestate : ∀ k ≤ np.iendx, np'.iestate k = np.iestate k

variable {np np' : Parser} {e e' : ItefEntry}

theorem Same.of_stacks (hl : np'.lpndx = np.lpndx) (hi : np'.iendx = np.iendx) (hls : np'.lpstate = np.lpstate)
    (his : np'.iestate = np.iestate) : Same np np' :=
  ⟨hl, fun _ _ => by rw [hls], hi, fun _ _ => by rw [his]⟩

theorem Same.refl (np : Parser) : Same np np := .of_stacks rfl rfl rfl rfl

theorem Same.trans {np'' : Parser} (h : Same np np') (h' : Same np' np'') : Same np np'' :=
  ⟨h'.lpndx.trans h.lpndx, fun l hl => (h'.lpstate l (h.lpndx ▸ hl)).trans (h.lpstate l hl),
    h'.iendx.trans h.iendx, fun k hk => (h'.iestate k (h.iendx ▸ hk)).trans (h.iestate k hk)⟩

theorem Same.lp (h : Same np np') : np'.lp = np.lp := by
  unfold Parser.lp
  rw [h.lpndx]
  exact h.lpstate _ .refl

theorem Same.ie (h : Same np np') : np'.ie = np.ie := by
  unfold Parser.ie
  rw [h.iendx]
  exact h.iestate _ .refl

theorem Same.ready (h : Same np np') (hr : np.Ready) : np'.Ready :=
  ⟨h.lp ▸ hr.notWhile, h.lp ▸ hr.notUntil, h.ie ▸ hr.notIf⟩

theorem Same.enabled (h : Same np np') : nshCmdenabled np' = nshCmdenabled np := by
  unfold nshCmdenabled nshLoopEnabled nshItefEnabled
  rw [h.lp, h.ie]

theorem Same.next (s : Shell) : Same s.np s.next := .of_stacks rfl rfl rfl rfl

theorem Same.pushIf (h : Same np np') : Same (np.pushIf e) (np'.pushIf e) := by
  refine ⟨h.lpndx, h.lpstate, by simp [Parser.pushIf, Parser.setIe, h.iendx], fun k hk => ?_⟩
  simp only [Parser.pushIf, Parser.setIe, h.iendx] at hk ⊢
  by_cases hi : k = np.iendx + 1
  · simp [hi]
  · rw [Function.update_of_ne hi, Function.update_of_ne hi, h.iestate k (by omega)]

theorem Same.setIe (h : Same (np.pushIf e) np') : Same (np.pushIf e') (np'.setIe e') := by
  have hi : np'.iendx = np.iendx + 1 := h.iendx
  refine ⟨h.lpndx, h.lpstate, hi, fun k hk => ?_⟩
  have hk' : np'.iestate k = _ := h.iestate k hk
  simp only [Parser.pushIf, Parser.setIe] at hk hk' ⊢
  rw [hi]
  by_cases hj : k = np.iendx + 1
  · simp [hj]
  · rw [Function.update_of_ne hj, Function.update_of_ne hj, hk', Function.update_of_ne hj]

theorem Same.popIf (h : Same (np.pushIf e) np') : Same np { np' with iendx := np'.iendx - 1 } := by
  have hi : np'.iendx = np.iendx + 1 := h.iendx
  refine ⟨h.lpndx, h.lpstate, by simp [hi], fun k hk => ?_⟩
  have hk' : np'.iestate k = _ := h.iestate k (Nat.le_succ_of_le hk)
  simp only [Parser.pushIf, Parser.setIe] at hk'
  rw [Function.update_of_ne (by omega)] at hk'
  exact hk'

def ifEntry (enabled inverted result : Bool) (state : ItefState) : ItefEntry :=
  ⟨enabled && (inverted ^^ result), !enabled, inverted, state⟩

def branchTaken (inverted result : Bool) : ItefState → Bool
  | .itefThen => result == inverted
  | .itefElse => result != inverted
  | _ => true

theorem itefEnabled_branch (np : Parser) (enabled inverted result : Bool) (state : ItefState) :
    nshItefEnabled (np.pushIf (ifEntry enabled inverted result state)) =
      (enabled && branchTaken inverted result state) := by
  cases enabled with
  | false => simp [nshItefEnabled, ifEntry]
  | true => cases state <;> cases inverted <;> cases result <;> simp [nshItefEnabled, ifEntry, branchTaken]

theorem enabled_branch (np : Parser) (inverted result : Bool) (state : ItefState) :
    nshCmdenabled (np.pushIf (ifEntry (nshCmdenabled np) inverted result state)) =
      (nshCmdenabled np && branchTaken inverted result state) := by
  rw [nshCmdenabled, itefEnabled_branch, show nshLoopEnabled (np.pushIf _) = nshLoopEnabled np from rfl]
  simp only [nshCmdenabled]
  cases nshLoopEnabled np <;> simp

variable (nestdepth ρ) in
theorem feed_plain {s : Shell} {argv : List String} (hr : s.np.Ready) (h : Plain argv) :
    ∃ np', Same s.np np' ∧ s.feed nestdepth ρ argv =
      ⟨np', if nshCmdenabled s.np then s.trace ++ [argv] else s.trace, s.errors⟩ := by
  have hn := Same.next s
  cases hc : nshCmdenabled s.np with
  | false =>
    refine ⟨s.next, hn, ?_⟩
    simp [Shell.feed, Shell.parse, parse_plain (hn.ready hr) h, hn.enabled, hc]
  | true =>
    refine ⟨{ s.next with fail := ρ s.trace.length }, .of_stacks rfl rfl rfl rfl, ?_⟩
    simp [Shell.feed, Shell.parse, parse_plain (hn.ready hr) h, hn.enabled, hc]

variable (nestdepth ρ) in
theorem feed_if {s : Shell} {cond : List String} (inverted : Bool) (hr : s.np.Ready) (h : Plain cond)
    (hd : s.np.iendx < nestdepth - 1) :
    ∃ np', Same (s.np.pushIf (ifEntry (nshCmdenabled s.np) inverted (ρ s.trace.length) .itefIf)) np' ∧
      s.feed nestdepth ρ (ifWords inverted cond) =
        ⟨np', if nshCmdenabled s.np then s.trace ++ [cond] else s.trace, s.errors⟩ := by
  have hn := Same.next s
  have hd' : s.next.iendx < nestdepth - 1 := hd
  cases hc : nshCmdenabled s.np with
  | false =>
    refine ⟨s.next.pushIf _, hn.pushIf, ?_⟩
    simp [Shell.feed, Shell.parse, parse_if inverted (hn.ready hr) h hd', hn.enabled, hc, ifEntry]
  | true =>
    refine ⟨({ s.next with fail := false } : Parser).pushIf _, Same.pushIf (.of_stacks rfl rfl rfl rfl), ?_⟩
    simp [Shell.feed, Shell.parse, parse_if inverted (hn.ready hr) h hd', hn.enabled, hc, ifEntry]

variable (nestdepth ρ) in
theorem feed_fi {s : Shell} (hs : Same (np.pushIf e) s.np) (hr : np.Ready)
    (he : e.state = .itefThen ∨ e.state = .itefElse) :
    ∃ np', Same np np' ∧ s.feed nestdepth ρ ["fi"] = ⟨np', s.trace, s.errors⟩ := by
  have hn := hs.trans (Same.next s)
  have hi : s.next.ie = e := hn.ie.trans (ie_pushIf e)
  have hl : s.next.lp = np.lp := hn.lp
  have hr' : s.next.Ready :=
    ⟨hl ▸ hr.notWhile, hl ▸ hr.notUntil, by rw [hi]; rcases he with he | he <;> simp [he]⟩
  have hd : s.next.iendx = np.iendx + 1 := hn.iendx
  refine ⟨_, hn.popIf, ?_⟩
  simp [Shell.feed, Shell.parse, parse_fi hr' (hi ▸ he) (hd ▸ Nat.succ_pos _)]

theorem fpos_saveresult (np : Parser) (result : Bool) : (nshSaveresult np result).1.fpos = np.fpos := by
  unfold nshSaveresult
  split_ifs <;> rfl

theorem fpos_execute (np : Parser) (argv : List String) (result : Bool) :
    (nshExecute np argv result).1.fpos = np.fpos := by
  unfold nshExecute
  split_ifs
  · rw [fpos_saveresult]
    unfold cmdBreak
    split_ifs <;> rfl
  · exact fpos_saveresult np result

theorem fpos_itef (nestdepth : Nat) (np : Parser) (words : List String) :
    (nshItef nestdepth np words).1.fpos = np.fpos := by
  cases words with
  | nil => rfl
  | cons cmd rest =>
    simp only [nshItef]
    split_ifs <;> rfl

theorem fpos_loop (nestdepth : Nat) (np : Parser) {words : List String} (h : words.head? ≠ some "done") :
    (nshLoop nestdepth np words).1.fpos = np.fpos := by
  cases words with
  | nil => rfl
  | cons cmd rest =>
    have hd : cmd ≠ "done" := by simpa using h
    simp only [nshLoop, hd, if_false]
    split_ifs <;> rfl

theorem fpos_parse (np : Parser) {words : List String} (h : words.head? ≠ some "done") (result : Bool) :
    (nshParseCommand nestdepth np words result).np.fpos = np.fpos := by
  have hl := fpos_loop nestdepth np h
  unfold nshParseCommand
  split
  case h_1 np₁ e he => rw [he] at hl; exact (fpos_saveresult _ _).trans hl
  case h_2 np₁ words₁ he =>
    rw [he] at hl
    have hi := fpos_itef nestdepth np₁ words₁
    split
    case h_1 np₂ e he => rw [he] at hi; exact (fpos_saveresult _ _).trans (hi.trans hl)
    case h_2 np₂ argv he =>
      rw [he] at hi
      split_ifs
      · exact hi.trans hl
      · exact (fpos_execute _ _ _).trans (hi.trans hl)

end NuttxApps.Nsh
