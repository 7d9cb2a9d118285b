import NuttxApps.Readline.Editor

/-!
# The bounds of the line buffer

The loop of `readline_common` relies on two free bytes in the buffer on each turn, but only a character that is typed is
checked for that. So the buffer is safe for every input exactly if all lines and names that an input can bring fit
(`safe_iff`).
-/

namespace NuttxApps.Readline

open Replay

variable (cfg : Config) (buflen : Nat)

/-- `readline_common` writes in its buffer only, and the line that it returns is terminated there. -/
structure Safe (s : State) : Prop where
  written : ∀ i ∈ s.written, i < buflen
  returned : ∀ n, s.status = .returned n → n ≤ buflen - 1 ∧ s.buf n = 0

structure Room (s : State) : Prop extends Safe buflen s where
  room : s.status = .reading → s.nch + 2 ≤ buflen

structure Fits (s : State) (ch : Option UInt8) : Prop where
  recalled : ∀ c, ch = some c → s.status = .reading → s.escape ≠ 0 → c ≠ 0x5b ∨ s.escape = 2 → 0 < s.hist.len →
    ∀ l ∈ (s.hist.arrow c).current cfg, l.length + 2 ≤ buflen
  complete : ch = some 0x09 → s.status = .reading → s.escape = 0 → (s.completion cfg).text.length + 2 ≤ buflen

variable {cfg buflen} {s : State}

theorem Safe.put (h : Safe buflen s) (hs : s.status = .reading) {i : Nat} (hi : i < buflen) (c : UInt8) :
    Safe buflen (s.put i c) where
  written k hk := ((mem_put s i c).mp hk).elim (fun h => h ▸ hi) (h.written k)
  returned n hn := by rw [put_status, hs] at hn; cases hn

theorem Safe.puts (h : Safe buflen s) (hs : s.status = .reading) {i : Nat} {l : List UInt8}
    (hi : i + l.length ≤ buflen) : Safe buflen (s.puts i l) where
  written k hk := ((mem_puts s i l).mp hk).elim (h.written k) fun h => by omega
  returned n hn := by rw [puts_status, hs] at hn; cases hn

section

variable (h : Room buflen s) (hs : s.status = .reading)

include h hs

theorem room_eof : Room buflen (step cfg buflen s none) := by
  have hroom := h.room hs
  have hstep : step cfg buflen s none = if 0 < s.nch then { s.put s.nch 0 with status := .returned s.nch }
      else { s with status := .eof } := by simp only [step, hs]
  rw [hstep]
  split
  · refine ⟨⟨(h.toSafe.put hs (by omega) 0).written, fun n hn => ?_⟩, by simp⟩
    cases hn
    exact ⟨by omega, Function.update_self ..⟩
  · exact ⟨⟨h.written, by simp⟩, by simp⟩

theorem room_type (c : UInt8) : Room buflen (s.type buflen c) := by
  have hroom := h.room hs
  have hput := h.toSafe.put hs (i := s.nch) (by omega) c
  unfold State.type
  dsimp only
  split_ifs with hlt
  · refine ⟨⟨(Safe.put ⟨hput.written, hput.returned⟩ hs (by show s.nch + 1 < buflen; omega) 0).written, fun n hn => ?_⟩,
      nofun⟩
    cases hn
    exact ⟨by show s.nch + 1 ≤ buflen - 1; omega, Function.update_self ..⟩
  · exact ⟨⟨hput.written, hput.returned⟩, fun _ => by
      show s.nch + 1 + 2 ≤ buflen
      replace hlt : ¬ s.nch + 1 + 1 ≥ buflen := hlt
      omega⟩

theorem room_newline : Room buflen (s.newline cfg) := by
  have hroom := h.room hs
  have hput := h.toSafe.put hs (i := s.nch) (by omega) 0x0a
  refine ⟨⟨(hput.put hs (i := s.nch + 1) (by omega) 0).written, fun n hn => ?_⟩, nofun⟩
  cases hn
  exact ⟨by omega, Function.update_self ..⟩

theorem room_endEscape (c : UInt8) (hfit : 0 < s.hist.len → ∀ l ∈ (s.hist.arrow c).current cfg, l.length + 2 ≤ buflen) :
    Room buflen { s.endEscape cfg c with escape := 0 } := by
  have hroom := h.room hs
  by_cases hlen : 0 < s.hist.len
  · cases hl : (s.hist.arrow c).current cfg with
    | none =>
      rw [State.endEscape, if_pos hlen]
      simp only [hl]
      exact ⟨⟨h.written, h.returned⟩, fun _ => by show 0 + 2 ≤ buflen; omega⟩
    | some l =>
      have hle := hfit hlen l hl
      rw [endEscape_some hlen hl]
      have hputs : Safe buflen (State.puts { s with hist := s.hist.arrow c, nch := 0 } 0 l) :=
        Safe.puts (s := { s with hist := s.hist.arrow c, nch := 0 }) ⟨h.written, h.returned⟩ hs (by omega)
      have hput := hputs.put (by rw [puts_status, hs]) (i := l.length) (by omega) 0
      exact ⟨⟨hput.written, hput.returned⟩, fun _ => hle⟩
  · rw [State.endEscape, if_neg hlen]
    exact ⟨⟨h.written, h.returned⟩, fun _ => hroom⟩

end

theorem Safe.tabCompletion (h : Safe buflen s) (hs : s.status = .reading) (hroom : s.nch + 2 ≤ buflen)
    (hfit : (s.completion cfg).text.length + 2 ≤ buflen) : Safe buflen (s.tabCompletion cfg buflen) := by
  unfold State.tabCompletion
  cases hc : s.completion cfg with
  | nothing => exact h
  | name t =>
    rw [hc] at hfit
    replace hfit : t.length + 2 ≤ buflen := hfit
    have hputs := h.puts hs (i := s.nch) (l := t.drop s.nch) (by rw [List.length_drop]; omega)
    exact ⟨hputs.written, hputs.returned⟩
  | several t =>
    have hputs := h.puts hs (i := 0) (l := t.take (buflen - 1) ++ [0]) (by simp; omega)
    exact ⟨hputs.written, hputs.returned⟩

theorem room_tabCompletion (h : Room buflen s) (hs : s.status = .reading)
    (hfit : (s.completion cfg).text.length + 2 ≤ buflen) : Room buflen (s.tabCompletion cfg buflen) := by
  have hroom := h.room hs
  refine ⟨h.toSafe.tabCompletion hs hroom hfit, fun _ => ?_⟩
  rw [(tabCompletion_frame cfg buflen s).1]
  omega

theorem Room.step (h : Room buflen s) {ch : Option UInt8} (hfit : Fits cfg buflen s ch) :
    Room buflen (step cfg buflen s ch) := by
  by_cases hs : s.status = .reading
  · have hroom := h.room hs
    cases ch with
    | none => exact room_eof h hs
    | some c =>
      rw [step_key hs]
      split_ifs with hesc hend hback hstart hnl hcntrl htab
      · exact room_endEscape h hs c (hfit.recalled c rfl hs hesc hend)
      · exact ⟨⟨h.written, h.returned⟩, h.room⟩
      · exact ⟨⟨h.written, h.returned⟩, fun _ => by show s.nch - 1 + 2 ≤ buflen; omega⟩
      · exact ⟨⟨h.written, h.returned⟩, h.room⟩
      · exact room_newline h hs
      · exact room_tabCompletion h hs (hfit.complete (by rw [htab]) hs (by omega))
      · exact h
      · exact room_type h hs c
  · rw [step_ended hs]
    exact h

theorem not_safe_newline (hs : s.status = .reading) (he : s.escape = 0) (hn : buflen < s.nch + 2) :
    ¬ Safe buflen (step cfg buflen s (some 0x0a)) := by
  intro h
  have hstep : step cfg buflen s (some 0x0a) = s.newline cfg := by
    rw [step_key hs, if_neg (by omega)]
    rfl
  have := h.written (s.nch + 1) (by rw [hstep]; exact List.mem_cons_self)
  omega

theorem fits_of_safe (h : Room buflen s) (ch : Option UInt8)
    (hsafe : Safe buflen (replay (step cfg buflen) s [ch, some 0x0a])) : Fits cfg buflen s ch := by
  replace hsafe : Safe buflen (step cfg buflen (step cfg buflen s ch) (some 0x0a)) := hsafe
  constructor
  · intro c hc hs hesc hend hlen l hl
    subst hc
    by_contra hlong
    refine not_safe_newline ?_ ?_ ?_ hsafe
    all_goals rw [step_key hs, if_pos hesc, if_pos hend, endEscape_some hlen hl]
    · show (State.puts _ 0 l).status = _
      rw [puts_status, hs]
    · show buflen < l.length + 2
      omega
  · intro hc hs hesc
    subst hc
    have hroom := h.room hs
    have hstep : step cfg buflen s (some 0x09) = s.tabCompletion cfg buflen := by
      rw [step_key hs, if_neg (by omega)]
      rfl
    rw [hstep] at hsafe
    obtain ⟨hnch, hescape, -, hstatus⟩ := tabCompletion_frame cfg buflen s
    by_contra hlong
    refine not_safe_newline ?_ ?_ ?_ hsafe
    · rw [hstatus, hs]
    · rw [hescape, hesc]
    · rw [hnch]
      omega

/-- Every input is safe exactly if all that it brings from the history and from the names fits. -/
theorem safe_iff (cfg : Config) {buflen : Nat} (hbuf : 2 ≤ buflen) (buf : Nat → UInt8) (hist : Cmdhist) :
    (∀ ins, Safe buflen (readlineCommon cfg buflen buf hist ins)) ↔
      ∀ ins, Guarded (step cfg buflen) (Fits cfg buflen) (start buf hist) ins := by
  have hstart : Room buflen (start buf hist) := ⟨⟨nofun, nofun⟩, fun _ => by show 0 + 2 ≤ buflen; omega⟩
  simp only [readlineCommon, if_neg (Nat.not_lt.mpr hbuf)]
  constructor
  · -- the first key whose text does not fit, and then the end of the line
    have aux (ins : List (Option UInt8)) : ∀ s, Room buflen s →
        (∀ ins, Safe buflen (replay (step cfg buflen) s ins)) → Guarded (step cfg buflen) (Fits cfg buflen) s ins := by
      induction ins with
      | nil => exact fun _ _ _ => trivial
      | cons ch ins ih =>
        intro s hr hsafe
        have hfit := fits_of_safe hr ch (hsafe [ch, some 0x0a])
        exact ⟨hfit, ih _ (hr.step hfit) fun ins => hsafe (ch :: ins)⟩
    exact fun h ins => aux ins _ hstart h
  · intro h ins
    have hstep (s : State) (ch : Option UInt8) (hr : Room buflen s) (hf : Fits cfg buflen s ch) :
        Room buflen (step cfg buflen s ch) := hr.step hf
    have := along_of_guarded hstep hstart (h ins) ins.length
    rw [List.take_length] at this
    exact this.toSafe

theorem safe_first : 2 ≤ 64 ∧ ∀ ins, Safe 64 (readlineCommon .bare 64 (fun _ => 0) .init ins) := by
  refine ⟨by decide, (safe_iff .bare (by decide) _ _).mpr fun ins => ?_⟩
  have hfits (s : State) (ch : Option UInt8) (h : s.status = .reading → s.hist.len = 0) : Fits .bare 64 s ch := by
    refine ⟨fun c _ hs _ _ hlen => ?_, fun _ _ _ => ?_⟩
    · rw [h hs] at hlen
      cases hlen
    · have : s.completion .bare = .nothing := by simp [State.completion, Config.bare, countMatches]
      rw [this]
      decide
  have hstep (s : State) (ch : Option UInt8) (h : s.status = .reading → s.hist.len = 0) (_ : True) :
      (step .bare 64 s ch).status = .reading → (step .bare 64 s ch).hist.len = 0 := by
    intro hs
    rw [step_ring hs]
    exact h (reading_of_step hs)
  exact guarded_of_inv hstep (fun s ch h _ => hfits s ch h) (fun _ => rfl) (guarded_true _ ins)

/-- A line of 20 characters from the history is written behind a buffer of 8. -/
theorem not_safe_recall :
    ¬ Safe 8 (readlineCommon .bare 8 (fun _ => 0)
      ⟨⟨fun _ => List.replicate 20 0x61, 1, 1⟩, 1⟩ [some 0x1b, some 0x5b, some 0x41]) := by
  intro h
  exact absurd (h.written 20 (by decide)) (by decide)

end NuttxApps.Readline
