import NuttxApps.Mml.Parser

/-!
# Sequences of calls

The tempo and the length of a tuplet come from the score, and later calls divide by them or return them. `On` is what a
call keeps, if its command is `Sound`; hence what the calls return (`results_playable`) and where the pointer is
(`cursor_stays`).
-/

namespace NuttxApps.Mml

open Libc CString Option List

def initMml (fs tempo octave length : Int) : MusicMacroLang := ⟨tempo, octave, length, fs, .normal, 0, 0, 0⟩

def MmlType.plays : MmlType → Bool
  | .note | .rest | .chord | .tupletStart => true
  | _ => false

/-- What is left is an end of `s`, lengths can be computed, and the notes of an open tuplet share one. -/
structure On (valid : Bool) (s : Score) (p : Parse) : Prop where
  score : p.score <:+ s
  tempo : 0 < p.mml.curTempo
  notes : p.mml.state = .tuplet → 0 < p.mml.tupletNotes
  length : valid → p.mml.state = .tuplet → 0 ≤ p.mml.tupletLength

variable (τ : Target) (valid : Bool)

/-- The command `code` sets no tempo 0 and, where lengths are to be `valid`, starts no tuplet without one. -/
def Sound (mml : MusicMacroLang) (code : UInt8) (s : Score) : Prop :=
  (command code = .tempo → s.head?.any isdigit = true → 0 < (atoi τ s).toInt) ∧
    (valid → command code = .tupletStart → mml.state = .normal → ∀ t ∈ (countNotes false 0 s).2,
      ∀ r ∈ sampleLength τ mml t, 0 ≤ r.1)

instance (mml : MusicMacroLang) (code : UInt8) (s : Score) : Decidable (Sound τ valid mml code s) :=
  inferInstanceAs (Decidable (_ ∧ _))

/-- The commands of the next `n` calls are all as `P` says. -/
def Calls (P : MusicMacroLang → UInt8 → Score → Prop) : Nat → Parse → Prop
  | 0, _ => True
  | n + 1, p => (∀ code ∈ (nextCode p.score).1, P p.mml code (nextCode p.score).2) ∧
      ∀ r ∈ parseMml τ p, Calls P n r.2

instance decidableCalls (P : MusicMacroLang → UInt8 → Score → Prop) [∀ mml code s, Decidable (P mml code s)] :
    ∀ n p, Decidable (Calls τ P n p)
  | 0, _ => .isTrue trivial
  | n + 1, _ =>
    have : DecidablePred fun r : MmlType × Parse => Calls τ P n r.2 := fun r => decidableCalls P n r.2
    inferInstanceAs (Decidable (_ ∧ _))

variable (s : Score)

/-- A call returns, and what it returns can be played. -/
def Good (r : Option (MmlType × Parse)) : Prop :=
  ∃ q, r = some q ∧ On valid s q.2 ∧ (valid → q.1.plays = true → 0 ≤ q.2.result.length)

theorem countNotes_nonneg (inChord : Bool) {notes : Int} (hnotes : 0 ≤ notes) (s : Score) :
    0 ≤ (countNotes inChord notes s).1 := by
  fun_induction countNotes inChord notes s <;> grind

theorem nextCode_suffix : (nextCode s).2 <:+ s := (tail_suffix _).trans (dropWhile_suffix _)

theorem halfscale_suffix : (halfscale s).2 <:+ s := by
  fun_induction halfscale s with
  | case1 => exact suffix_rfl
  | case2 c s _ ih => exact ih.trans (suffix_cons c s)
  | case3 s _ ih => exact ih.trans (suffix_cons 45 s)
  | case4 => exact suffix_rfl

section

variable {τ : Target} {valid : Bool} {s : Score}

theorem good_quiet {q : MmlType × Parse} (h : On valid s q.2) (hq : q.1.plays = false) : Good valid s (some q) :=
  ⟨q, rfl, h, by simp [hq]⟩

variable {p : Parse} {type error : MmlType} (h : On valid s p)

include h

theorem On.to {t : Score} (ht : t <:+ p.score) (r : MmlResult) : On valid s ⟨p.mml, t, r⟩ :=
  ⟨ht.trans h.score, h.tempo, h.notes, h.length⟩

theorem good_withLength (herror : error.plays = false) (len : Int) {t : Score} (ht : t <:+ p.score) :
    Good valid s (some (withLength p type error len t)) := by
  refine ⟨_, rfl, h.to ht _, fun _ => ?_⟩
  rw [withLength]
  split_ifs with hlen
  · simp [herror]
  · exact fun _ => Int.not_lt.mp hlen

theorem good_sampleLength (herror : error.plays = false) :
    Good valid s ((sampleLength τ p.mml p.score).map fun (len, score) => withLength p type error len score) := by
  obtain ⟨r, hr, hsuffix⟩ := sampleLength_some h.tempo p.score
  rw [hr]
  exact good_withLength h herror r.1 hsuffix

theorem good_tupletLength (hstate : p.mml.state = .tuplet) :
    Good valid s ((tupletLength p.mml).map fun (len, mml) =>
      (type, { p with mml, result := { p.result with length := len } })) := by
  rw [tupletLength_eq (h.notes hstate)]
  exact ⟨_, rfl, ⟨h.score, h.tempo, h.notes, h.length⟩,
    fun hvalid _ => share_nonneg ⟨hstate, h.notes hstate, h.length hvalid hstate, h.tempo⟩⟩

theorem on_handleOctave (code : UInt8) : On valid s (handleOctave τ p code).2 := by
  have hdigits := (dropWhile_suffix isdigit (l := p.score)).trans h.score
  rw [handleOctave, takeNumber]
  split_ifs
  · exact ⟨h.score, h.tempo, h.notes, h.length⟩
  · exact ⟨h.score, h.tempo, h.notes, h.length⟩
  · exact ⟨hdigits, h.tempo, h.notes, h.length⟩
  · exact h

theorem on_chordLoop (fuel : Nat) : On valid s (chordLoop τ fuel p).2 := by
  induction fuel generalizing p with
  | zero => exact h
  | succ fuel ih =>
    have hnext := h.to (nextCode_suffix p.score) p.result
    rw [chordLoop]
    split
    · rename_i t hcode
      rw [hcode] at hnext
      exact hnext
    · rename_i code t hcode
      rw [hcode] at hnext
      have hoctave := on_handleOctave (τ := τ) hnext code
      have hnote (r : MmlResult) := hnext.to (halfscale_suffix t) r
      dsimp only
      split_ifs
      · exact hnext
      · exact ih (hnote _)
      · exact ih (hnote _)
      · generalize handleOctave τ ⟨p.mml, t, p.result⟩ code = r at hoctave ⊢
        split
        · exact ih hoctave
        · exact hoctave
      · exact hnext

theorem good_handleStartchord : Good valid s (handleStartchord τ p) := by
  have hon := on_chordLoop (τ := τ) h (p.score.length + 1)
  rw [handleStartchord]
  generalize chordLoop τ (p.score.length + 1) p = r at hon
  split
  · exact good_quiet hon rfl
  · rename_i q
    split_ifs with hstate
    · have hnext : On valid s ⟨{ q.mml with curTuplet := q.mml.curTuplet + 1 }, q.score, q.result⟩ :=
        ⟨hon.score, hon.tempo, hon.notes, hon.length⟩
      rw [tupletLength_eq (hon.notes hstate)]
      exact good_withLength hnext rfl _ suffix_rfl
    · exact good_sampleLength hon rfl

theorem good_handleStarttuplet (hlen : valid → p.mml.state = .normal → ∀ t ∈ (countNotes false 0 p.score).2,
    ∀ r ∈ sampleLength τ p.mml t, 0 ≤ r.1) : Good valid s (handleStarttuplet τ p) := by
  rw [handleStarttuplet]
  split_ifs with hstate
  · exact good_quiet h rfl
  have hnormal : p.mml.state = .normal := not_not.mp hstate
  have hclosed : p.mml.state ≠ .tuplet := by simp [hnormal]
  have hnotes := countNotes_nonneg false (le_refl 0) p.score
  rw [countTupletnotes]
  rcases hcount : countNotes false 0 p.score with ⟨notes, _ | t⟩
  · exact good_quiet ⟨h.score, h.tempo, fun hs => absurd hs hclosed, fun _ hs => absurd hs hclosed⟩ rfl
  · obtain ⟨⟨len, rest⟩, hr, -⟩ := sampleLength_some h.tempo t
    have hr' : sampleLength τ { p.mml with tupletNotes := notes } t = some (len, rest) :=
      (sampleLength_congr (by rfl) (by rfl) (by rfl) t).trans hr
    rw [hcount] at hnotes
    dsimp only
    rw [hr']
    dsimp only [map_some]
    split_ifs with hzero
    · exact good_quiet ⟨h.score, h.tempo, fun hs => absurd hs hclosed, fun _ hs => absurd hs hclosed⟩ rfl
    · have hle (hvalid : valid) : 0 ≤ len := hlen hvalid hnormal t (by rw [hcount]; rfl) (len, rest) hr
      have hpos : 0 < notes := lt_of_le_of_ne hnotes (Ne.symm (not_or.mp hzero).2)
      exact ⟨_, rfl, ⟨h.score, h.tempo, fun _ => hpos, fun hvalid _ => hle hvalid⟩, fun hvalid _ => hle hvalid⟩

theorem good_handle {code : UInt8} (hsound : Sound τ valid p.mml code p.score) : Good valid s (handle τ p code) := by
  have hnote (r : MmlResult) := h.to (halfscale_suffix p.score) r
  have hdigits (r : MmlResult) := h.to (dropWhile_suffix isdigit) r
  rw [handle]
  split
  · rw [handleNotes, handleTupletnote]
    split_ifs with hstate
    · exact good_tupletLength (hnote _) hstate
    · exact good_quiet (h.to suffix_rfl _) rfl
    · exact good_sampleLength (hnote _) rfl
  · rw [handleRest]
    split_ifs with hstate
    · exact good_tupletLength h hstate
    · exact good_sampleLength h rfl
  · rw [handleTempo, takeNumber]
    split_ifs with hdigit
    · exact good_quiet ⟨(hdigits p.result).score, hsound.1 ‹_› hdigit, h.notes, h.length⟩ rfl
    · exact good_quiet h rfl
  · rw [handleLength, takeNumber]
    split_ifs
    · exact good_quiet ⟨(hdigits p.result).score, h.tempo, h.notes, h.length⟩ rfl
    · exact good_quiet h rfl
  · refine good_quiet (on_handleOctave h code) ?_
    rw [handleOctave, takeNumber]
    split_ifs <;> rfl
  · refine good_quiet (hdigits _) ?_
    rw [handleVolume]
    split_ifs <;> rfl
  · exact good_handleStartchord h
  · exact good_handleStarttuplet h fun hvalid => hsound.2 hvalid ‹_›
  · obtain ⟨r, hr, hsuffix⟩ :=
      sampleLength_some (show 0 < ({ p.mml with state := .normal } : MusicMacroLang).curTempo from h.tempo) p.score
    rw [handleStoptuplet, hr]
    refine good_quiet ⟨hsuffix.trans h.score, h.tempo, by simp, by simp⟩ ?_
    dsimp only
    split_ifs <;> rfl
  · rw [handleTone, takeNumber]
    split_ifs
    · exact good_quiet (hdigits _) rfl
    · exact good_quiet h rfl
  · exact good_quiet h rfl

omit h in
/-- A call goes on in the score, and at its end returns `MML_TYPE_EOF`. -/
theorem good_parseMml (h : On valid p.score p)
    (hsound : ∀ code ∈ (nextCode p.score).1, Sound τ valid p.mml code (nextCode p.score).2) :
    ∃ q, parseMml τ p = some q ∧ On valid p.score q.2 ∧ (valid → q.1.plays = true → 0 ≤ q.2.result.length) ∧
      q.2.score.length ≤ p.score.length - 1 ∧ (p.score = [] → q.1 = .eof) := by
  have hnext := h.to (nextCode_suffix p.score) { p.result with chordNotes := 0 }
  rw [parseMml]
  split
  · rename_i t hcode
    rw [hcode] at hnext
    have ht : t = [] := by
      rw [← show _ = t from congrArg Prod.snd hcode, nextCode, head?_eq_none_iff.mp (congrArg Prod.fst hcode)]
      rfl
    exact ⟨_, rfl, hnext, by simp [MmlType.plays], by simp [ht], fun _ => rfl⟩
  · rename_i code t hcode
    rw [hcode] at hnext
    have hlt : t.length < p.score.length := by
      have hne := ne_nil_of_mem (mem_of_mem_head? (congrArg Prod.fst hcode))
      have hle := (dropWhile_suffix isspace (l := p.score)).length_le
      rw [← show _ = t from congrArg Prod.snd hcode, nextCode, length_tail]
      have := length_pos_of_ne_nil hne
      omega
    obtain ⟨q, hq, hon, hplays⟩ := good_handle (τ := τ) (s := t) (p := ⟨p.mml, t, { p.result with chordNotes := 0 }⟩)
      ⟨suffix_rfl, hnext.tempo, hnext.notes, hnext.length⟩ (by rw [hcode] at hsound; exact hsound code rfl)
    refine ⟨q, hq, ⟨hon.score.trans hnext.score, hon.tempo, hon.notes, hon.length⟩, hplays, ?_, ?_⟩
    · have := hon.score.length_le
      omega
    · intro hnil
      rw [hnil] at hlt
      contradiction

end

variable {τ}

theorem parseCalls_playable {n : Nat} {p : Parse} (h : On true p.score p) (hcalls : Calls τ (Sound τ true) n p) :
    ∃ rs q, parseCalls τ n p = some (rs, q) ∧ ∀ r ∈ rs, r.1.plays = true → 0 ≤ r.2.length := by
  induction n generalizing p with
  | zero => exact ⟨[], p, rfl, nofun⟩
  | succ n ih =>
    obtain ⟨⟨type, q⟩, hparse, hon, hplays, -⟩ := good_parseMml h hcalls.1
    obtain ⟨rs, q', hrs, hall⟩ := ih ⟨suffix_rfl, hon.tempo, hon.notes, hon.length⟩ (hcalls.2 (type, q) hparse)
    refine ⟨(type, q.result) :: rs, q', ?_, forall_mem_cons.mpr ⟨hplays rfl, hall⟩⟩
    rw [parseCalls, hparse, bind_some]
    dsimp only at hrs ⊢
    rw [hrs]
    rfl

theorem on_initMml (fs octave length : Int) {tempo : Int} (htempo : 0 < tempo) (score : Score)
    (result : MmlResult) : On valid score ⟨initMml fs tempo octave length, score, result⟩ :=
  ⟨suffix_rfl, htempo, fun h => absurd h (show State.normal ≠ .tuplet by decide),
    fun _ h => absurd h (show State.normal ≠ .tuplet by decide)⟩

/-- After `init_mml` with a positive tempo, as long as every call is `Sound`, no call divides by zero, and no note,
rest, chord or tuplet has a negative length. -/
theorem results_playable (fs octave length : Int) {tempo : Int} (htempo : 0 < tempo) (score : Score)
    (result : MmlResult) {n : Nat} (hcalls : Calls τ (Sound τ true) n ⟨initMml fs tempo octave length, score, result⟩) :
    ∃ rs q, parseCalls τ n ⟨initMml fs tempo octave length, score, result⟩ = some (rs, q) ∧
      ∀ r ∈ rs, r.1.plays = true → 0 ≤ r.2.length :=
  parseCalls_playable (on_initMml true fs octave length htempo score result) hcalls

/-- The score `T60{C [EG]}4[CE]2.R`. -/
def tempoTupletChord : Score :=
  chars ['T', '6', '0', '\x7b', 'C', ' ', '[', 'E', 'G', ']', '\x7d', '4', '[', 'C', 'E', ']', '2', '.', 'R']

theorem results_playable_tuplet :
    ∃ rs q, parseCalls .bits64 9 ⟨initMml 48000 120 4 4, tempoTupletChord, ⟨.replicate 5 0, 0, 0⟩⟩ = some (rs, q) ∧
      rs.map (fun r => (r.1, r.2.length)) =
        [(.tempo, 60), (.tupletStart, 48000), (.note, 24000), (.chord, 24000), (.tupletDone, 24000), (.chord, 144000),
          (.rest, 48000), (.eof, 48000), (.eof, 48000)] ∧
      ∀ r ∈ rs, r.1.plays = true → 0 ≤ r.2.length := by
  obtain ⟨rs, q, hrs, hplays⟩ := results_playable (τ := .bits64) 48000 4 4 (show (0 : Int) < 120 by decide)
    tempoTupletChord ⟨.replicate 5 0, 0, 0⟩ (n := 9) (by decide +kernel)
  have htypes : (parseCalls .bits64 9 ⟨initMml 48000 120 4 4, tempoTupletChord, ⟨.replicate 5 0, 0, 0⟩⟩).map
      (fun r => r.1.map fun r => (r.1, r.2.length)) = some
        [(.tempo, 60), (.tupletStart, 48000), (.note, 24000), (.chord, 24000), (.tupletDone, 24000), (.chord, 144000),
          (.rest, 48000), (.eof, 48000), (.eof, 48000)] := by decide +kernel
  rw [hrs] at htypes
  exact ⟨rs, q, hrs, some.inj htypes, hplays⟩

/-- `T0C` divides by zero, and the tuplet `{C}3` has a negative length. -/
theorem results_unplayable :
    parseCalls .bits64 2 ⟨initMml 48000 120 4 4, [84, 48, 67], ⟨.replicate 5 0, 0, 0⟩⟩ = none ∧
      (parseMml .bits64 ⟨initMml 48000 120 4 4, [123, 67, 125, 51], ⟨.replicate 5 0, 0, 0⟩⟩).map
        (fun r => (r.1, r.2.result.length)) = some (.tupletStart, -22) := by
  decide +kernel

/-! ## The pointer into the score -/

/-- Whether the loop of `handle_startchord` ends at the terminator, which `next_code` has then gone past. -/
def chordPast : Nat → Score → Bool
  | 0, _ => false
  | fuel + 1, s =>
    match nextCode s with
    | (none, _) => true
    | (some code, s) =>
      if code = 93 then false
      else if 0 ≤ noteIndex code then chordPast fuel (halfscale s).2
      else if code = 62 ∨ code = 60 then chordPast fuel s
      else code = 79 && s.head?.any isdigit && chordPast fuel (s.dropWhile isdigit)

/-- Whether a call leaves the pointer behind the terminator; at the end of the score `parse_mml` steps back. -/
def goesPast : Bool :=
  match nextCode s with
  | (some code, s) => command code = .chordStart && chordPast (s.length + 1) s
  | _ => false

variable (τ) in
/-- What `n` calls return, each with what is left of the score; `none` for a pointer behind the terminator. -/
def cursors : Nat → Parse → Option (List (MmlType × Option Score))
  | 0, _ => some []
  | n + 1, p => (parseMml τ p).bind fun (type, q) =>
      (cursors n q).map ((type, if goesPast p.score then none else some q.score) :: ·)

/-- A chord that is opened is closed later. -/
def Closed (code : UInt8) (s : Score) : Prop := command code = .chordStart → 93 ∈ s

instance (code : UInt8) (s : Score) : Decidable (Closed code s) := inferInstanceAs (Decidable (_ → _))

theorem mem_dropWhile {f : UInt8 → Bool} {c : UInt8} (hc : f c = false) {s : Score} (h : c ∈ s) :
    c ∈ s.dropWhile f := by
  rw [← takeWhile_append_dropWhile (p := f) (l := s), mem_append] at h
  refine h.resolve_left fun ht => ?_
  rw [mem_takeWhile_imp ht] at hc
  contradiction

theorem mem_halfscale {s : Score} (h : 93 ∈ s) : 93 ∈ (halfscale s).2 := by
  fun_induction halfscale s <;> grind

theorem chordPast_eq_false {s : Score} (h : 93 ∈ s) (fuel : Nat) : chordPast fuel s = false := by
  induction fuel generalizing s with
  | zero => rfl
  | succ fuel ih =>
    have hblank : 93 ∈ s.dropWhile isspace := mem_dropWhile (by decide) h
    rw [chordPast, nextCode]
    obtain ⟨code, t, ht⟩ := exists_cons_of_ne_nil (ne_nil_of_mem hblank)
    rw [ht] at hblank ⊢
    dsimp only [head?_cons, tail_cons]
    split_ifs with hcode
    · rfl
    · exact ih (mem_halfscale ((mem_cons.mp hblank).resolve_left (Ne.symm hcode)))
    · exact ih ((mem_cons.mp hblank).resolve_left (Ne.symm hcode))
    · rw [ih (mem_dropWhile (by decide) ((mem_cons.mp hblank).resolve_left (Ne.symm hcode))), Bool.and_false]

theorem goesPast_eq_false {s : Score} (h : ∀ code ∈ (nextCode s).1, Closed code (nextCode s).2) :
    goesPast s = false := by
  rw [goesPast]
  split
  · rename_i code t hcode
    by_cases hchord : command code = .chordStart
    · rw [hcode] at h
      rw [chordPast_eq_false (h code rfl hchord), Bool.and_false]
    · rw [decide_eq_false hchord, Bool.false_and]
  · rfl

theorem cursors_on {n : Nat} {p : Parse} (h : On false p.score p)
    (hcalls : Calls τ (fun mml code s => Sound τ false mml code s ∧ Closed code s) n p) :
    ∃ cs, cursors τ n p = some cs ∧ (∀ c ∈ cs, ∃ rest, c.2 = some rest ∧ rest <:+ p.score) ∧
      ∀ i c, p.score.length ≤ i → cs[i]? = some c → c.1 = .eof := by
  induction n generalizing p with
  | zero => exact ⟨[], rfl, nofun, by simp⟩
  | succ n ih =>
    obtain ⟨⟨type, q⟩, hparse, hon, -, hlen, hend⟩ := good_parseMml h fun code hcode => (hcalls.1 code hcode).1
    obtain ⟨cs, hcs, hleft, heof⟩ := ih ⟨suffix_rfl, hon.tempo, hon.notes, hon.length⟩ (hcalls.2 (type, q) hparse)
    have hpast := goesPast_eq_false fun code hcode => (hcalls.1 code hcode).2
    refine ⟨(type, some q.score) :: cs, ?_, forall_mem_cons.mpr ⟨⟨_, rfl, hon.score⟩, fun c hc => ?_⟩, ?_⟩
    · rw [cursors, hparse, bind_some]
      dsimp only at hcs ⊢
      rw [hcs, hpast]
      rfl
    · obtain ⟨rest, hrest, hsuffix⟩ := hleft c hc
      exact ⟨rest, hrest, hsuffix.trans hon.score⟩
    · rintro (_ | i) c hi hc
      · obtain rfl := some.inj hc
        exact hend (length_eq_zero_iff.mp (Nat.le_zero.mp hi))
      · exact heof i c (by dsimp only at hlen ⊢; omega) hc

/-- As long as no call sets the tempo 0 or opens a chord that is not closed, the pointer stays within the score, and
after as many calls as the score has characters, every call returns `MML_TYPE_EOF`. -/
theorem cursor_stays (fs octave length : Int) {tempo : Int} (htempo : 0 < tempo) (score : Score) (result : MmlResult)
    {n : Nat} (hcalls : Calls τ (fun mml code s => Sound τ false mml code s ∧ Closed code s) n
      ⟨initMml fs tempo octave length, score, result⟩) :
    ∃ cs, cursors τ n ⟨initMml fs tempo octave length, score, result⟩ = some cs ∧
      (∀ c ∈ cs, ∃ rest, c.2 = some rest ∧ rest <:+ score) ∧
      ∀ i c, score.length ≤ i → cs[i]? = some c → c.1 = .eof :=
  cursors_on (on_initMml false fs octave length htempo score result) hcalls

theorem cursor_stays_tuplet :
    ∃ cs, cursors .bits64 20 ⟨initMml 48000 120 4 4, tempoTupletChord, ⟨.replicate 5 0, 0, 0⟩⟩ = some cs ∧
      (∀ c ∈ cs, ∃ rest, c.2 = some rest ∧ rest <:+ tempoTupletChord) ∧
      ∀ i c, tempoTupletChord.length ≤ i → cs[i]? = some c → c.1 = .eof :=
  cursor_stays (τ := .bits64) 48000 4 4 (show (0 : Int) < 120 by decide) tempoTupletChord ⟨.replicate 5 0, 0, 0⟩
    (n := 20) (by decide +kernel)

/-- After `[C` the pointer is behind the terminator. -/
theorem cursor_leaves :
    cursors .bits64 1 ⟨initMml 48000 120 4 4, [91, 67], ⟨.replicate 5 0, 0, 0⟩⟩ = some [(.chordError, none)] := by
  decide +kernel

end NuttxApps.Mml
