import NuttxApps.Readline.History

/-!
# The line that is returned

Keys without arrows, typed up to a newline, are meant to give the line of a simple editor (`Stroke.edit`). Where there
is a history, the end of every escape sequence brings back the line that its offset names; `readlineCommon_edits` is
about the runs in which that is the edited one (`Harmless`). A tab is meant to give the longest common prefix of the
names that match, which a name shorter than the first one may fail to cut (`tabCompletion_common_iff`).
-/

namespace NuttxApps.Readline

open Bytes Replay List

inductive Stroke
  | printable (c : UInt8) (h : ¬ iscntrl c)
  | erase (c : UInt8) (h : c = 0x08 ∨ c = 0x7f)
  | control (c : UInt8) (h : iscntrl c ∧ c ∉ [0x08, 0x7f, 0x1b, 0x0a, 0x09])
  | escape (c : UInt8) (h : c ≠ 0x5b)
  | bracket (c : UInt8) (h : c ≠ 0x41 ∧ c ≠ 0x42)

def Stroke.bytes : Stroke → List UInt8
  | .printable c _ | .erase c _ | .control c _ => [c]
  | .escape c _ => [0x1b, c]
  | .bracket c _ => [0x1b, 0x5b, c]

def Stroke.edit (l : List UInt8) : Stroke → List UInt8
  | .printable c _ => l ++ [c]
  | .erase .. => l.dropLast
  | .control .. | .escape .. | .bracket .. => l

section

variable (cfg : Config) (buflen : Nat)

def stroke (s : State) (k : Stroke) : State := replay (step cfg buflen) s (k.bytes.map some)

/-- What an escape sequence recalls is the line that is edited. -/
def Harmless (s : State) : Stroke → Prop
  | .escape c _ | .bracket c _ => s.hist.len = 0 ∨ ((s.hist.arrow c).current cfg).getD [] = s.line
  | _ => True

end

structure Edits (s : State) (l : List UInt8) : Prop where
  reading : s.status = .reading
  escape : s.escape = 0
  line : s.line = l

section

variable {cfg : Config} {buflen : Nat} {s : State} {l : List UInt8} (h : Edits s l)

include h

theorem Edits.length : s.nch = l.length := by rw [← h.line, State.line, length_bytesAt]

theorem Edits.endEscape {c : UInt8} (hc : s.hist.len = 0 ∨ ((s.hist.arrow c).current cfg).getD [] = s.line) (n : Nat) :
    Edits { State.endEscape cfg { s with escape := n } c with escape := 0 } l := by
  obtain ⟨hline, -, hstatus⟩ := endEscape_line cfg { s with escape := n } c
  refine ⟨hstatus.trans h.reading, rfl, (hline.trans ?_).trans h.line⟩
  show (if 0 < s.hist.len then ((s.hist.arrow c).current cfg).getD [] else s.line) = s.line
  split_ifs with hlen
  · exact hc.resolve_left (by omega)
  · rfl

theorem Edits.stroke {k : Stroke} (hk : Harmless cfg s k) (hfits : (k.edit l).length + 1 < buflen) :
    Edits (stroke cfg buflen s k) (k.edit l) := by
  have hescape : ¬ s.escape ≠ 0 := not_not.mpr h.escape
  cases k with
  | printable c hc =>
    show Edits (step cfg buflen s (some c)) (l ++ [c])
    rw [Stroke.edit, length_append, length_singleton, ← h.length] at hfits
    rw [step_char h.reading h.escape hc, State.type, if_neg (Nat.not_le.mpr hfits), ← h.line]
    exact ⟨h.reading, h.escape, bytesAt_put_end s c⟩
  | erase c hc =>
    show Edits (step cfg buflen s (some c)) l.dropLast
    rw [step_key h.reading, if_neg hescape, if_pos hc, ← h.line]
    refine ⟨h.reading, h.escape, ?_⟩
    show bytesAt s.buf 0 (s.nch - 1) = (bytesAt s.buf 0 s.nch).dropLast
    cases s.nch with
    | zero => rfl
    | succ n => rw [bytesAt_append]; exact dropLast_concat.symm
  | control c hc =>
    show Edits (step cfg buflen s (some c)) l
    simp only [mem_cons, not_or] at hc
    rw [step_key h.reading, if_neg hescape, if_neg (not_or.mpr ⟨hc.2.1, hc.2.2.1⟩), if_neg hc.2.2.2.1,
      if_neg hc.2.2.2.2.1, if_neg (not_not.mpr hc.1), if_neg hc.2.2.2.2.2.1]
    exact h
  | escape c hc =>
    show Edits (step cfg buflen (step cfg buflen s (some 0x1b)) (some c)) l
    rw [step_esc h.reading h.escape, step_key (s := { s with escape := 1 }) h.reading,
      if_pos (show (1 : Nat) ≠ 0 by decide), if_pos (.inl hc)]
    exact h.endEscape hk 1
  | bracket c hc =>
    rw [Readline.stroke, Stroke.bytes, press_arrow h.reading h.escape]
    exact h.endEscape hk 2

theorem Edits.run {ks : List Stroke} (hks : Guarded (Readline.stroke cfg buflen) (Harmless cfg) s ks)
    (hfits : ∀ n, ((ks.take n).foldl Stroke.edit l).length + 1 < buflen) :
    Edits (replay (Readline.stroke cfg buflen) s ks) (ks.foldl Stroke.edit l) := by
  induction ks generalizing s l with
  | nil => exact h
  | cons k ks ih => exact ih (h.stroke hks.1 (hfits 1)) hks.2 fun n => hfits (n + 1)

end

/-- The line is what a simple editor makes of the keys, and the newline, if no escape sequence brings another one. -/
theorem readlineCommon_edits (cfg : Config) {buflen : Nat} (buf : Nat → UInt8) (hist : Cmdhist) (ks : List Stroke)
    (hfits : ∀ n, ((ks.take n).foldl Stroke.edit []).length + 1 < buflen)
    (hks : Guarded (stroke cfg buflen) (Harmless cfg) (start buf hist) ks) :
    let s := readlineCommon cfg buflen buf hist ((ks.flatMap Stroke.bytes ++ [0x0a]).map some)
    s.status = .returned ((ks.foldl Stroke.edit []).length + 1) ∧ s.line = ks.foldl Stroke.edit [] ++ [0x0a] := by
  have h : Edits (replay (stroke cfg buflen) (start buf hist) ks) (ks.foldl Stroke.edit []) :=
    Edits.run ⟨rfl, rfl, rfl⟩ hks hfits
  have hbuflen : 0 + 1 < buflen := hfits 0
  have hbytes : replay (step cfg buflen) (start buf hist) ((ks.flatMap Stroke.bytes).map some) =
      replay (stroke cfg buflen) (start buf hist) ks := by
    rw [map_flatMap]
    exact foldl_flatMap
  dsimp only
  rw [readlineCommon, if_neg (by omega), map_append, replay_append, hbytes]
  revert h
  generalize replay (stroke cfg buflen) (start buf hist) ks = s
  intro h
  show (step cfg buflen s (some 0x0a)).status = _ ∧ (step cfg buflen s (some 0x0a)).line = _
  rw [step_newline h.reading h.escape, ← h.length, ← h.line]
  refine ⟨rfl, ?_⟩
  show bytesAt (State.put _ (s.nch + 1) 0).buf 0 (s.nch + 1) = _
  rw [bytesAt_put (by omega)]
  exact bytesAt_put_end { s with hist := s.save cfg } 0x0a

theorem readlineCommon_edits_b :
    (readlineCommon .bare 64 (fun _ => 0) ⟨⟨fun _ => [0x78], 1, 1⟩, 1⟩
      ([0x1b, 0x5b, 0x43, 0x61, 0x08, 0x62, 0x0a].map some)).line = [0x62, 0x0a] :=
  (readlineCommon_edits .bare (fun _ => 0) ⟨⟨fun _ => [0x78], 1, 1⟩, 1⟩
    [.bracket 0x43 (by decide), .printable 0x61 (by decide), .erase 0x08 (by decide), .printable 0x62 (by decide)]
    (fun n => by rcases n with _ | _ | _ | _ | n <;> simp [Stroke.edit])
    ⟨.inr rfl, trivial, trivial, trivial, trivial⟩).2

/-- With a history, the right arrow clears the line. -/
theorem readlineCommon_clears :
    (readlineCommon .bare 64 (fun _ => 0) ⟨⟨fun _ => [0x78], 1, 1⟩, 1⟩ ([0x61, 0x1b, 0x5b, 0x43, 0x0a].map some)).line =
        [0x0a] ∧
      [.printable 0x61 (by decide), .bracket 0x43 (by decide)].foldl Stroke.edit [] = [0x61] := by
  decide

/-- The longest common prefix. -/
def Common (p : List UInt8) (names : List (List UInt8)) : Prop :=
  (∀ m ∈ names, p <+: m) ∧ ∀ q, (∀ m ∈ names, q <+: m) → q <+: p

/-- All names that are long enough have the character of `first` at `j`. -/
abbrev AgreeAt (first : List UInt8) (names : List (List UInt8)) (j : Nat) : Prop :=
  ∀ m ∈ names, j < m.length → m.getD j 0 = first.getD j 0

/-- Names shorter than the first one do not outlast a difference among the names. -/
def CutShort (names : List (List UInt8)) : Prop :=
  ∀ m ∈ names, m.length < (names.headD []).length → ∃ j ≤ m.length, ¬ AgreeAt (names.headD []) names j

/-- The commands that begin with what is typed, in the order in which they are shown. -/
def Config.matching (cfg : Config) (l : List UInt8) : List (List UInt8) :=
  (cfg.extcmds ++ cfg.builtins).filter (l <+: ·)

section

variable {q l : List UInt8} (hq : 0 ∉ q)

include hq

theorem getD_ne_zero {j : Nat} (hj : j < q.length) : q.getD j 0 ≠ 0 := fun h0 => hq <| by
  rw [getD_eq_getElem?_getD, getElem?_eq_getElem hj, Option.getD_some] at h0
  exact h0 ▸ getElem_mem hj

theorem prefix_iff_getD : q <+: l ↔ ∀ j < q.length, l.getD j 0 = q.getD j 0 := by
  rw [prefix_iff_getElem?]
  refine forall₂_congr fun j hj => ?_
  have hj0 := getD_ne_zero hq hj
  simp only [getD_eq_getElem?_getD, getElem?_eq_getElem hj, Option.getD_some] at hj0 ⊢
  cases l[j]? with
  | none => exact iff_of_false nofun hj0.symm
  | some c => simp

end

theorem prefix_takeWhile_iff {q l : List UInt8} : q <+: l.takeWhile (· ≠ 0) ↔ q <+: l ∧ 0 ∉ q := by
  refine ⟨fun h => ⟨h.trans ( takeWhile_prefix _), fun h0 => ?_⟩, ?_⟩
  · simpa using mem_takeWhile_imp (h.subset h0)
  · rintro ⟨⟨r, rfl⟩, h0⟩
    have hq : ∀ c ∈ q, decide (c ≠ 0) = true := fun c hc => decide_eq_true fun hc0 => h0 (hc0 ▸ hc)
    rw [takeWhile_append_of_pos hq]
    exact prefix_append ..

/-- `tmp_name` is the first name, with 0 where the names that were shown differ. -/
def Cells (first : List UInt8) (names : List (List UInt8)) (tmp : List UInt8) : Prop :=
  ∀ j, tmp.getD j 0 = if AgreeAt first names j then first.getD j 0 else 0

section

variable {first tmp : List UInt8} {seen : List (List UInt8)}

theorem cells_addName (h : Cells first seen tmp) (htmp : tmp.head? ≠ some 0) (m : List UInt8) :
    Cells first (seen ++ [m]) (addName tmp m) := by
  intro j
  have hcell : (addName tmp m).getD j 0 =
      if j < m.length ∧ m.getD j 0 ≠ tmp.getD j 0 then 0 else tmp.getD j 0 := by
    rw [addName, if_neg htmp]
    simp only [getD_eq_getElem?_getD, getElem?_mapIdx]
    cases tmp[j]? <;> simp
  rw [hcell, h j]
  simp only [AgreeAt, forall_mem_append, forall_mem_singleton]
  grind

variable (hfirst : first.getD 0 0 ≠ 0)

include hfirst

theorem cells_head (h : Cells first seen tmp) (h0 : AgreeAt first seen 0) : tmp.head? ≠ some 0 := by
  intro hhead
  have := h 0
  rw [if_pos h0, getD_eq_getElem?_getD, ← head?_eq_getElem?, hhead] at this
  exact hfirst this.symm

theorem cells_foldl (h : Cells first seen tmp) (names : List (List UInt8)) (h0 : AgreeAt first (seen ++ names) 0) :
    Cells first (seen ++ names) (names.foldl addName tmp) := by
  induction names generalizing seen tmp with
  | nil => rwa [append_nil]
  | cons m names ih =>
    have htmp := cells_head hfirst h fun n hn => h0 n (mem_append_left _ hn)
    have hnext := ih (cells_addName h htmp m) (by rwa [append_assoc])
    rwa [append_assoc] at hnext

variable {cfg : Config} {rest : List (List UInt8)} (hsize : first.length ≤ cfg.taskNameSize)
  (hclean : 0 ∉ first) (h0 : AgreeAt first (first :: rest) 0)

include hsize hclean h0

theorem prefix_common_iff (q : List UInt8) :
    q <+: common cfg (first :: rest) ↔ q <+: first ∧ ∀ j < q.length, AgreeAt first (first :: rest) j := by
  obtain ⟨tmp, htmp⟩ : ∃ tmp, tmp = splice (.replicate (cfg.taskNameSize + 1) 0) 0 (first ++ [0]) := ⟨_, rfl⟩
  have hinit : Cells first [] tmp := by
    intro j
    simp only [htmp, getD_eq_getElem?_getD, getElem?_splice]
    grind
  have hadd : addName (.replicate (cfg.taskNameSize + 1) 0) first = addName tmp first := by
    rw [addName, addName, if_pos (by rfl), if_neg (cells_head hfirst hinit nofun), length_replicate,
      Nat.add_sub_cancel, take_of_length_le hsize, htmp]
  have hcells := cells_foldl hfirst hinit (first :: rest) h0
  rw [common, foldl_cons, hadd, ← foldl_cons, prefix_takeWhile_iff]
  constructor
  · rintro ⟨hq, hq0⟩
    rw [prefix_iff_getD hq0] at hq
    have hagree (j : Nat) (hj : j < q.length) : AgreeAt first (first :: rest) j := by
      by_contra hne
      exact getD_ne_zero hq0 hj ((hq j hj).symm.trans ((hcells j).trans (if_neg hne)))
    exact ⟨(prefix_iff_getD hq0).mpr fun j hj =>
      (if_pos (hagree j hj)).symm.trans ((hcells j).symm.trans (hq j hj)), hagree⟩
  · rintro ⟨hq, hagree⟩
    have hq0 : 0 ∉ q := fun h => hclean (hq.subset h)
    rw [prefix_iff_getD hq0] at hq ⊢
    exact ⟨fun j hj => (hcells j).trans ((if_pos (hagree j hj)).trans (hq j hj)), hq0⟩

theorem common_iff : Common (common cfg (first :: rest)) (first :: rest) ↔ CutShort (first :: rest) := by
  have hiff := prefix_common_iff hfirst hsize hclean h0
  generalize common cfg (first :: rest) = t at hiff ⊢
  obtain ⟨ht, hagree⟩ := (hiff t).mp prefix_rfl
  have hq0 {q : List UInt8} (hq : q <+: first) : 0 ∉ q := fun h => hclean (hq.subset h)
  constructor
  · rintro ⟨hp, -⟩ m hm (hlt : m.length < first.length)
    by_contra! hnone
    have hlong : first.take (m.length + 1) <+: t := (hiff _).mpr ⟨ take_prefix .., fun j hj => hnone j (by
      rw [length_take] at hj
      omega)⟩
    have hle := (hlong.trans (hp m hm)).length_le
    rw [length_take] at hle
    omega
  · refine fun h => ⟨fun m hm => ?_, fun q hq => (hiff q).mpr ⟨hq first mem_cons_self, fun j hj m hm _ => ?_⟩⟩
    · have hlen : t.length ≤ m.length := by
        by_contra! hlt
        obtain ⟨j, hj, hne⟩ := h m hm (lt_of_lt_of_le hlt ht.length_le)
        exact hne (hagree j (by omega))
      exact (prefix_iff_getD (hq0 ht)).mpr fun j hj =>
        (hagree j hj m hm (by omega)).trans ((prefix_iff_getD (hq0 ht)).mp ht j hj)
    · have hq' (n : List UInt8) (hn : n ∈ first :: rest) :=
        (prefix_iff_getD (hq0 (hq first mem_cons_self))).mp (hq n hn) j hj
      rw [hq' m hm, hq' first mem_cons_self]

end

section

variable {cfg : Config} {buflen : Nat} {s : State}

theorem tabCompletion_line (ht : s.line <+: (s.completion cfg).text) (hfits : (s.completion cfg).text.length < buflen) :
    (s.tabCompletion cfg buflen).line = (s.completion cfg).text := by
  have hlen : s.line.length = s.nch := length_bytesAt ..
  have hnch := (tabCompletion_frame cfg buflen s).1
  rw [← hlen, Nat.max_eq_right ht.length_le] at hnch
  rw [State.line, hnch]
  unfold State.tabCompletion
  revert ht hfits
  cases s.completion cfg with
  | nothing => exact fun _ _ => rfl
  | name t =>
    rintro ⟨r, rfl⟩ -
    have hlow : bytesAt (s.puts s.nch r).buf 0 s.nch = s.line := map_congr_left fun j hj => by
      rw [zero_add]
      exact puts_buf_lt (mem_range.mp hj)
    show bytesAt (s.puts s.nch ((s.line ++ r).drop s.nch)).buf 0 (s.line ++ r).length = s.line ++ r
    rw [drop_left' hlen, length_append, hlen, bytesAt_append, zero_add, bytesAt_puts, hlow]
  | several t =>
    intro _ (hfits : t.length < buflen)
    show bytesAt (s.puts 0 (t.take (buflen - 1) ++ [0])).buf 0 t.length = t
    have hputs := bytesAt_puts s 0 (t ++ [0])
    rw [length_append, bytesAt_append] at hputs
    rw [take_of_length_le (by omega)]
    exact (append_inj hputs (length_bytesAt ..)).1

theorem sameUpTo_line (hclean : 0 ∉ s.line) (hline : s.line ≠ []) (name : List UInt8) :
    sameUpTo s.buf 0 s.nch name = decide (s.line <+: name) := by
  unfold State.line at *
  generalize s.nch = n at *
  cases n with
  | zero => exact absurd rfl hline
  | succ n =>
    have hbuf (j : Nat) (hj : j < n + 1) : s.buf (0 + j) ≠ 0 := fun h =>
      hclean (mem_map.mpr ⟨j, mem_range.mpr hj, h⟩)
    rw [Bool.eq_iff_iff, decide_eq_true_iff, sameUpTo_iff 0 n name fun j hj => hbuf j (by omega), bytesAt_append]
    exact or_iff_right fun h => hbuf n (by omega) h.2

variable (hline : s.line ≠ []) (hclean : 0 ∉ s.line)
  (hext : (cfg.extcmds.filter (s.line <+: ·)).length ≤ cfg.maxExtcmds)
  (hbuiltin : (cfg.builtins.filter (s.line <+: ·)).length ≤ cfg.maxBuiltins)

include hline hclean hext hbuiltin

theorem completion_text (hsome : cfg.matching s.line ≠ []) : (s.completion cfg).text =
    if (cfg.matching s.line).length = 1 then (cfg.matching s.line).headD [] else common cfg (cfg.matching s.line) := by
  have hcount {max : Nat} {names : List (List UInt8)} (h : (names.filter (s.line <+: ·)).length ≤ max) :
      countMatches s max names = names.filter (s.line <+: ·) := by
    rw [countMatches, funext (sameUpTo_line hclean hline), take_of_length_le h]
  have hpos : 0 < s.line.length := length_pos_of_ne_nil hline
  rw [State.line, length_bytesAt] at hpos
  rw [State.completion, hcount hext, hcount hbuiltin, if_neg (by omega)]
  rw [Config.matching, filter_append] at hsome ⊢
  generalize cfg.extcmds.filter (s.line <+: ·) = E at hsome ⊢
  generalize cfg.builtins.filter (s.line <+: ·) = B at hsome ⊢
  rw [length_append, add_comm]
  split_ifs with h1 hb hmany
  · obtain rfl : E = [] := length_eq_zero_iff.mp (by omega)
    rfl
  · obtain rfl : B = [] := length_eq_zero_iff.mp (by omega)
    rw [append_nil]
    rfl
  · rfl
  · exact absurd (length_pos_of_ne_nil hsome) (by rw [length_append]; omega)

/-- A completion leaves the longest common beginning of the names that match, exactly if they are `CutShort`. -/
theorem tabCompletion_common_iff (hbuflen : cfg.taskNameSize < buflen)
    (hsize : ∀ m ∈ cfg.matching s.line, m.length ≤ cfg.taskNameSize) (hsome : cfg.matching s.line ≠ []) :
    Common (s.tabCompletion cfg buflen).line (cfg.matching s.line) ↔ CutShort (cfg.matching s.line) := by
  have htext := completion_text hline hclean hext hbuiltin hsome
  have hmatch (m : List UInt8) (hm : m ∈ cfg.matching s.line) : s.line <+: m ∧ 0 ∉ m := by
    rw [Config.matching, mem_filter, decide_eq_true_iff] at hm
    exact ⟨hm.2, cfg.names m (by simpa [or_comm] using hm.1)⟩
  revert htext hmatch hsize hsome
  generalize cfg.matching s.line = names
  rintro hsize hsome htext hmatch
  obtain ⟨first, rest, rfl⟩ := exists_cons_of_ne_nil hsome
  obtain ⟨hstart, hclean'⟩ := hmatch first mem_cons_self
  have hpos := length_pos_of_ne_nil hline
  have hline' := (prefix_iff_getD hclean).mp hstart
  have hagree (j : Nat) (hj : j < s.line.length) : AgreeAt first (first :: rest) j := fun m hm _ =>
    ((prefix_iff_getD hclean).mp (hmatch m hm).1 j hj).trans (hline' j hj).symm
  have hfirst : first.getD 0 0 ≠ 0 := by
    rw [hline' 0 hpos]
    exact getD_ne_zero hclean hpos
  have hsize' := hsize first mem_cons_self
  have hiff := prefix_common_iff hfirst hsize' hclean' (hagree 0 hpos)
  have hle := ((hiff _).mp prefix_rfl).1.length_le
  -- a single name is what it has in common with itself
  replace htext : (s.completion cfg).text = common cfg (first :: rest) := by
    rw [htext]
    split_ifs with hone
    · obtain rfl : rest = [] := length_eq_zero_iff.mp (Nat.succ.inj hone)
      exact ((hiff first).mpr ⟨prefix_rfl, fun j _ m hm _ => by rw [mem_singleton.mp hm]⟩).eq_of_length_le hle
    · rfl
  rw [← htext] at hiff hle
  rw [tabCompletion_line ((hiff _).mpr ⟨hstart, hagree⟩) (by omega), htext]
  exact common_iff hfirst hsize' hclean' (hagree 0 hpos)

end

def Config.shell (builtins : List (List UInt8)) (h : ∀ name ∈ builtins, 0 ∉ name) : Config :=
  { Config.bare with builtins, names := by simpa [Config.bare] using h }

def typedA : State := (start (fun _ => 0) .init).type 64 0x61

theorem tabCompletion_common_ab :
    Common (typedA.tabCompletion (.shell [[0x61, 0x62], [0x61, 0x62, 0x63]] (by decide)) 64).line
      [[0x61, 0x62], [0x61, 0x62, 0x63]] :=
  (tabCompletion_common_iff (s := typedA) (by decide) (by decide) (by decide) (by decide) (by decide) (by decide)
    (by decide)).mpr fun m hm hlt => absurd hlt
      ((show ∀ m ∈ [[0x61, 0x62], [(0x61 : UInt8), 0x62, 0x63]], ¬ m.length < 2 by decide) m hm)

/-- The end of `ab` is missed. -/
theorem tabCompletion_past :
    (typedA.tabCompletion (.shell [[0x61, 0x62, 0x63], [0x61, 0x62]] (by decide)) 64).line = [0x61, 0x62, 0x63] := by
  decide

end NuttxApps.Readline
