import Mathlib.Data.List.TakeWhile
import NuttxApps.Readline.Editor

/-!
# The order of the command history

The history is meant to be the lines that were entered, without empty ones and immediate repetitions, the latest first
(`recent`), from whose top an arrow key starts. The code compares one character more than the line has, and an empty
line leaves the offset where the arrow keys have put it. A session in which neither matters (`Told`) has the history
that is meant (`recall_recent`).
-/

namespace NuttxApps.Readline

open Bytes Replay
open List hiding min

section Meant

variable {α : Type} [DecidableEq α]

def collapse : List α → List α
  | [] => []
  | x :: xs => if xs.head? = some x then collapse xs else x :: collapse xs

theorem head?_collapse (xs : List α) : (collapse xs).head? = xs.head? := by
  induction xs with
  | nil => rfl
  | cons x xs ih =>
    rw [collapse]
    split_ifs with h
    · rw [ih, h]
      rfl
    · rfl

end Meant

def recent (n : Nat) (lines : List (List UInt8)) : List (List UInt8) :=
  (collapse (lines.reverse.filter (· ≠ []))).take n

def remember (n : Nat) (H : List (List UInt8)) (l : List UInt8) : List (List UInt8) :=
  if l = [] ∨ H.head? = some l then H else (l :: H).take n

theorem recent_append {n : Nat} (hn : 0 < n) (lines : List (List UInt8)) (l : List UInt8) :
    recent n (lines ++ [l]) = remember n (recent n lines) l := by
  obtain ⟨n, rfl⟩ : ∃ m, n = m + 1 := ⟨n - 1, by omega⟩
  unfold recent remember
  rw [reverse_append, reverse_singleton, singleton_append]
  by_cases hl : l = []
  · rw [filter_cons_of_neg (by simpa using hl), if_pos (.inl hl)]
  · rw [filter_cons_of_pos (by simpa using hl), collapse]
    have hhead : ((collapse (lines.reverse.filter (· ≠ []))).take (n + 1)).head? =
        (lines.reverse.filter (· ≠ [])).head? := by
      rw [head?_take, if_neg (by omega), head?_collapse]
    rw [hhead]
    by_cases hrep : (lines.reverse.filter (· ≠ [])).head? = some l
    · rw [if_pos hrep, if_pos (.inr hrep)]
    · rw [if_neg hrep, if_neg (not_or.mpr ⟨hl, hrep⟩), take_succ_cons, take_succ_cons, take_take,
        min_eq_left (Nat.le_succ n)]

inductive Key
  | char (c : UInt8)
  | backspace
  | up
  | down
  | right
  | left

def Key.bytes : Key → List UInt8
  | .char c => [c]
  | .backspace => [0x08]
  | .up => [0x1b, 0x5b, 0x41]
  | .down => [0x1b, 0x5b, 0x42]
  | .right => [0x1b, 0x5b, 0x43]
  | .left => [0x1b, 0x5b, 0x44]

/-- A line that is entered: what is in the buffer when `readline_common` is called, and the keys up to the end of
the line. -/
structure Entry where
  buf : Nat → UInt8
  keys : List Key

section Session

variable (cfg : Config) (buflen : Nat)

def press (s : State) (k : Key) : State := replay (step cfg buflen) s (k.bytes.map some)

def edit (h : Cmdhist) (e : Entry) : State := replay (press cfg buflen) (start e.buf h) e.keys

def enter (h : Cmdhist) (e : Entry) : Cmdhist := (step cfg buflen (edit cfg buflen h e) (some 0x0a)).hist

def lines : Cmdhist → List Entry → List (List UInt8)
  | _, [] => []
  | h, e :: es => (edit cfg buflen h e).line :: lines (enter cfg buflen h e) es

/-- The line ends before the buffer is full, and fits in the history and in the buffer. -/
structure Entered (h : Cmdhist) (e : Entry) : Prop where
  typed : ∀ c, .char c ∈ e.keys → ¬ iscntrl c
  reading : (edit cfg buflen h e).status = .reading
  linelen : (edit cfg buflen h e).line.length < cfg.histLinelen
  buflen : (edit cfg buflen h e).line.length < buflen - 1

end Session

/-- The character behind the line does not hide a repetition, nor makes it look like one, and an empty line does not
leave an offset behind. -/
structure Told (s : State) : Prop where
  repetition : 1 ≤ s.nch → s.line = s.hist.cells s.hist.head → s.buf s.nch = 0
  fresh : 1 ≤ s.nch → ¬ s.line ++ [s.buf s.nch] <+: s.hist.cells s.hist.head
  empty : s.nch = 0 → s.hist.len = 0 ∨ s.hist.offset = 1

theorem bytesAt_succ (buf : Nat → UInt8) (i n : Nat) : bytesAt buf i (n + 1) = buf i :: bytesAt buf (i + 1) n := by
  rw [add_comm, bytesAt_append]
  rfl

/-- `strncmp` of a line that is not terminated, with the character behind it. -/
theorem sameUpTo_iff {buf : Nat → UInt8} (i n : Nat) (t : List UInt8) (hbuf : ∀ j < n, buf (i + j) ≠ 0) :
    sameUpTo buf i (n + 1) t = true ↔
      bytesAt buf i n = t ∧ buf (i + n) = 0 ∨ bytesAt buf i n ++ [buf (i + n)] <+: t := by
  induction n generalizing i t with
  | zero => cases t <;> simp [sameUpTo, bytesAt]
  | succ n ih =>
    have h0 : buf i ≠ 0 := hbuf 0 (by omega)
    rw [bytesAt_succ]
    cases t with
    | nil => simp [sameUpTo, h0]
    | cons c t =>
      rw [sameUpTo, Bool.and_eq_true, beq_iff_eq,
        ih (i + 1) t fun j hj => by rw [show i + 1 + j = i + (j + 1) by omega]; exact hbuf (j + 1) (by omega),
        show i + 1 + n = i + (n + 1) by omega, cons_append, cons_prefix_cons, cons.injEq, and_assoc,
        ← and_or_left]

section Buffer

variable {s : State} {i k n : Nat} {c : UInt8} {l : List UInt8}

theorem bytesAt_put (h : i + n ≤ k) : bytesAt (s.put k c).buf i n = bytesAt s.buf i n := by
  refine map_congr_left fun j hj => ?_
  exact Function.update_of_ne (by have := mem_range.mp hj; omega) _ _

theorem puts_buf_lt (h : k < i) : (s.puts i l).buf k = s.buf k := by
  induction l generalizing s i with
  | nil => rfl
  | cons c l ih =>
    rw [State.puts, ih (by omega)]
    exact Function.update_of_ne (by omega) _ _

theorem bytesAt_puts (s : State) (i : Nat) (l : List UInt8) : bytesAt (s.puts i l).buf i l.length = l := by
  induction l generalizing s i with
  | nil => rfl
  | cons c l ih =>
    rw [length_cons, bytesAt_succ, State.puts, ih, puts_buf_lt (Nat.lt_succ_self i)]
    congr 1
    exact Function.update_self ..

end Buffer

section Editing

variable {cfg : Config} {buflen : Nat} {s : State}

theorem endEscape_line (cfg : Config) (s : State) (c : UInt8) :
    (s.endEscape cfg c).line = (if 0 < s.hist.len then ((s.hist.arrow c).current cfg).getD [] else s.line) ∧
      (s.endEscape cfg c).hist = (if 0 < s.hist.len then s.hist.arrow c else s.hist) ∧
      (s.endEscape cfg c).status = s.status := by
  unfold State.endEscape
  split_ifs
  · dsimp only
    cases (s.hist.arrow c).current cfg with
    | none => exact ⟨rfl, rfl, rfl⟩
    | some l =>
      refine ⟨?_, by simp [State.setLine], by simp [State.setLine]⟩
      show bytesAt ((State.puts _ 0 l).put l.length 0).buf 0 l.length = l
      rw [bytesAt_put (by omega), bytesAt_puts]
  · exact ⟨rfl, rfl, rfl⟩

section

variable (hs : s.status = .reading) (he : s.escape = 0)

include hs he

theorem step_esc : step cfg buflen s (some 0x1b) = { s with escape := 1 } := by
  rw [step_key hs, if_neg (by omega)]
  rfl

theorem step_newline : step cfg buflen s (some 0x0a) = s.newline cfg := by
  rw [step_key hs, if_neg (by omega)]
  rfl

theorem press_arrow (c : UInt8) : replay (step cfg buflen) s ([0x1b, 0x5b, c].map some) =
    { State.endEscape cfg { s with escape := 2 } c with escape := 0 } := by
  have h2 : step cfg buflen { s with escape := 1 } (some 0x5b) = { s with escape := 2 } := by
    rw [step_key (s := { s with escape := 1 }) hs]
    rfl
  show step cfg buflen (step cfg buflen (step cfg buflen s (some 0x1b)) (some 0x5b)) (some c) = _
  rw [step_esc hs he, h2, step_key (s := { s with escape := 2 }) hs, if_pos (show (2 : Nat) ≠ 0 by decide)]
  exact if_pos (.inr rfl)

end

structure Editing (r : Ring (List UInt8)) (s : State) : Prop where
  escape : s.escape = 0
  ring : s.hist.toRing = r
  clean : 0 ∉ s.line

def Key.Typed : Key → Prop
  | .char c => ¬ iscntrl c
  | _ => True

variable {r : Ring (List UInt8)}

theorem editing_endEscape (hr : ∀ i, 0 ∉ r.cells i) (h : Editing r s) (c : UInt8) :
    Editing r { State.endEscape cfg { s with escape := 2 } c with escape := 0 } := by
  refine ⟨rfl, ?_, ?_⟩
  · show (State.endEscape cfg { s with escape := 2 } c).hist.toRing = r
    rw [endEscape_ring]
    exact h.ring
  · show 0 ∉ (State.endEscape cfg { s with escape := 2 } c).line
    rw [(endEscape_line cfg _ c).1]
    split_ifs
    · unfold Cmdhist.current
      split_ifs
      · exact not_mem_nil
      · show 0 ∉ (s.hist.arrow c).toRing.cells _
        rw [arrow_ring, h.ring]
        exact hr _
    · exact h.clean

theorem bytesAt_put_end (s : State) (c : UInt8) : bytesAt (s.put s.nch c).buf 0 (s.nch + 1) = s.line ++ [c] := by
  rw [bytesAt_append, bytesAt_put (by omega), zero_add]
  show s.line ++ [Function.update s.buf s.nch c s.nch] = _
  rw [Function.update_self]

theorem editing_type (h : Editing r s) {c : UInt8} (hc : ¬ iscntrl c) : Editing r (s.type buflen c) := by
  have hc0 : 0 ≠ c := fun h => hc (by rw [← h]; decide)
  have hclean : 0 ∉ bytesAt (s.put s.nch c).buf 0 (s.nch + 1) := by
    rw [bytesAt_put_end, mem_append, mem_singleton]
    exact not_or.mpr ⟨h.clean, hc0⟩
  unfold State.type
  dsimp only
  split
  · refine ⟨h.escape, h.ring, ?_⟩
    show 0 ∉ bytesAt (State.put { s.put s.nch c with nch := s.nch + 1 } (s.nch + 1) 0).buf 0 (s.nch + 1)
    rw [bytesAt_put (by omega)]
    exact hclean
  · exact ⟨h.escape, h.ring, hclean⟩

theorem step_char (hs : s.status = .reading) (he : s.escape = 0) {c : UInt8} (hc : ¬ iscntrl c) :
    step cfg buflen s (some c) = s.type buflen c := by
  have hne (d : UInt8) (hd : iscntrl d) : c ≠ d := fun h => hc (h ▸ hd)
  rw [step_key hs, if_neg (by omega), if_neg (not_or.mpr ⟨hne _ (by decide), hne _ (by decide)⟩),
    if_neg (hne _ (by decide)), if_neg (hne _ (by decide)), if_pos hc]

theorem editing_press (hr : ∀ i, 0 ∉ r.cells i) (h : Editing r s) {k : Key} (hk : k.Typed) :
    Editing r (press cfg buflen s k) := by
  by_cases hs : s.status = .reading
  · cases k with
    | up | down | right | left =>
      rw [press, Key.bytes, press_arrow hs h.escape]
      exact editing_endEscape hr h _
    | backspace =>
      have hback : step cfg buflen s (some 0x08) = { s with nch := s.nch - 1 } := by
        rw [step_key hs, if_neg (by have := h.escape; omega)]
        rfl
      show Editing r (step cfg buflen s (some 0x08))
      rw [hback]
      refine ⟨h.escape, h.ring, fun hm => h.clean ?_⟩
      obtain ⟨j, hj, hz⟩ := mem_map.mp hm
      exact mem_map.mpr ⟨j, mem_range.mpr (lt_of_lt_of_le (mem_range.mp hj) (Nat.sub_le _ _)), hz⟩
    | char c =>
      show Editing r (step cfg buflen s (some c))
      rw [step_char hs h.escape hk]
      exact editing_type h hk
  · have hstay (ins : List (Option UInt8)) : replay (step cfg buflen) s ins = s := by
      induction ins with
      | nil => rfl
      | cons ch ins ih => rw [replay_cons, step_ended hs, ih]
    rw [press, hstay]
    exact h

theorem editing_edit {h : Cmdhist} (hr : ∀ i, 0 ∉ h.cells i) {e : Entry} (ht : ∀ c, .char c ∈ e.keys → ¬ iscntrl c) :
    Editing h.toRing (edit cfg buflen h e) := by
  refine replay_keeps (fun s k hk hs => editing_press hr hs ?_) ⟨rfl, rfl, by simp [start, State.line, bytesAt]⟩
  cases k with
  | char c => exact ht c hk
  | backspace | up | down | right | left => trivial

end Editing

/-! ## The history of a session -/

section Session

variable {cfg : Config} {buflen : Nat} {h : Cmdhist} {H : List (List UInt8)}

structure Keeps (cfg : Config) (h : Cmdhist) (H : List (List UInt8)) : Prop where
  holds : h.toRing.Holds cfg.histLen H
  clean : ∀ i, 0 ∉ h.cells i
  bare : H = [] → h.cells h.head = []
  offset : H ≠ [] → h.offset = 1

theorem keeps_init (cfg : Config) : Keeps cfg .init [] where
  holds := ⟨cfg.histLen_pos, rfl, Nat.zero_le _, nofun⟩
  clean _ := not_mem_nil
  bare _ := rfl
  offset hne := absurd rfl hne

section

variable (h' : Keeps cfg h H)

include h'

theorem Keeps.head : H.head? = if H = [] then none else some (h.cells h.head) := by
  cases H with
  | nil => rfl
  | cons l H =>
    have := h'.holds.get 0 (by simp)
    rw [Ring.index, Nat.sub_zero, Nat.add_mod_right, Nat.mod_eq_of_lt h'.holds.lt] at this
    simpa using this

section

variable {s : State} (hs : Editing h.toRing s)

include hs

theorem Keeps.save_again (hne : s.line ≠ []) (hrep : s.line = h.cells h.head) :
    Keeps cfg { s.hist with offset := 1 } (remember cfg.histLen H s.line) := by
  have hH : H ≠ [] := fun h0 => hne (hrep.trans (h'.bare h0))
  rw [remember, if_pos (.inr (by rw [h'.head, if_neg hH, hrep]))]
  refine ⟨?_, fun i => ?_, fun h0 => absurd h0 hH, fun _ => rfl⟩
  · show s.hist.toRing.Holds _ _
    rw [hs.ring]
    exact h'.holds
  · show 0 ∉ s.hist.cells i
    rw [hs.ring]
    exact h'.clean i

theorem Keeps.save_new (hne : s.line ≠ []) (hrep : s.line ≠ h.cells h.head) :
    Keeps cfg { s.hist.toRing.push cfg.histLen s.line with offset := 1 } (remember cfg.histLen H s.line) := by
  have hhead : ¬ (s.line = [] ∨ H.head? = some s.line) := by
    rw [h'.head]
    split <;> simp [hne, Ne.symm hrep]
  rw [remember, if_neg hhead]
  refine ⟨?_, fun i => ?_, fun h0 => ?_, fun _ => rfl⟩
  · show (s.hist.toRing.push cfg.histLen s.line).Holds _ _
    rw [hs.ring]
    exact h'.holds.push s.line
  · show 0 ∉ Function.update s.hist.cells _ s.line i
    rw [Function.update_apply, hs.ring]
    split
    · exact hs.clean
    · exact h'.clean i
  · obtain ⟨n, hpos⟩ : ∃ n, cfg.histLen = n + 1 := ⟨cfg.histLen - 1, by have := cfg.histLen_pos; omega⟩
    rw [hpos] at h0
    cases h0

theorem Keeps.save_empty (h0 : s.nch = 0) (ht : Told s) : Keeps cfg s.hist (remember cfg.histLen H s.line) := by
  have hempty : s.line = [] := by rw [State.line, h0]; rfl
  rw [remember, if_pos (.inl hempty)]
  refine ⟨hs.ring ▸ h'.holds, hs.ring ▸ h'.clean, hs.ring ▸ h'.bare, fun hH => ?_⟩
  rcases ht.empty h0 with hlen | ho
  · rw [hs.ring, h'.holds.len] at hlen
    exact absurd (length_eq_zero_iff.mp hlen) hH
  · exact ho

theorem Keeps.save (hl : s.line.length < cfg.histLinelen)
    (ht : Told s) : Keeps cfg (s.save cfg) (remember cfg.histLen H s.line) := by
  have hnch : s.line.length = s.nch := length_bytesAt ..
  have hlast : s.hist.cells s.hist.head = h.cells h.head := by rw [hs.ring]
  unfold State.save
  by_cases hn : 1 ≤ s.nch
  · have hne : s.line ≠ [] := ne_nil_of_length_pos (by omega)
    have hclean : ∀ j < s.nch, s.buf (0 + j) ≠ 0 := fun j hj hz =>
      hs.clean (mem_map.mpr ⟨j, mem_range.mpr hj, hz⟩)
    have hsame := sameUpTo_iff 0 s.nch (s.hist.cells s.hist.head) hclean
    rw [zero_add] at hsame
    have hline : (bytesAt s.buf 0 (min s.nch (cfg.histLinelen - 1))).takeWhile (· ≠ 0) = s.line := by
      rw [min_eq_left (by omega)]
      exact takeWhile_eq_self_iff.mpr fun c hc => by
        have : c ≠ 0 := fun h0 => hs.clean (h0 ▸ hc)
        simpa using this
    rw [if_pos hn, hline]
    split_ifs with h1
    · refine h'.save_again hs hne ?_
      rcases hsame.mp h1 with ⟨he, -⟩ | hp
      · exact hlast ▸ he
      · exact absurd hp (ht.fresh hn)
    · exact h'.save_new hs hne fun he =>
        h1 (hsame.mpr (.inl ⟨by rw [hlast, ← he]; rfl, ht.repetition hn (by rw [hlast, he])⟩))
  · rw [if_neg hn]
    exact h'.save_empty hs (by omega) ht

end

theorem Keeps.enter {e : Entry} (he : Entered cfg buflen h e) (ht : Told (edit cfg buflen h e)) :
    Keeps cfg (enter cfg buflen h e) (remember cfg.histLen H (edit cfg buflen h e).line) := by
  have hs : Editing h.toRing (edit cfg buflen h e) := editing_edit h'.clean he.typed
  rw [Readline.enter, step_newline he.reading hs.escape]
  exact h'.save hs he.linelen ht

end

theorem Keeps.session {es : List Entry} (past : List (List UInt8)) (h' : Keeps cfg h (recent cfg.histLen past))
    (hes : Guarded (Readline.enter cfg buflen)
      (fun h e => Entered cfg buflen h e ∧ Told (edit cfg buflen h e)) h es) :
    Keeps cfg (replay (Readline.enter cfg buflen) h es) (recent cfg.histLen (past ++ lines cfg buflen h es)) := by
  induction es generalizing h past with
  | nil =>
    rw [lines, append_nil]
    exact h'
  | cons e es ih =>
    have hnext := h'.enter hes.1.1 hes.1.2
    rw [← recent_append cfg.histLen_pos] at hnext
    rw [lines, replay_cons, ← singleton_append, ← append_assoc]
    exact ih _ hnext hes.2

theorem Keeps.current (h' : Keeps cfg h H) {k : Nat} (hk : k < H.length) {h₁ : Cmdhist} (hr : h₁.toRing = h.toRing)
    (ho : h₁.offset = -k) : h₁.current cfg = H[k]? := by
  have hlt := h'.holds.lt
  have hidx : (if (h.head + -k : Int) < 0 then (h.head + -k : Int) + cfg.histLen
      else if (h.head + -k : Int) ≥ cfg.histLen then (h.head + -k : Int) - cfg.histLen else h.head + -k).toNat =
      h.toRing.index cfg.histLen k := by
    rw [Ring.index]
    rcases lt_or_ge h.head k with hw | hw
    · rw [if_pos (by omega), Nat.mod_eq_of_lt (by omega)]
      omega
    · rw [if_neg (by omega), if_neg (by omega), show h.head + cfg.histLen - k = (h.head - k) + cfg.histLen by omega,
        Nat.add_mod_right, Nat.mod_eq_of_lt (by omega)]
      omega
  rw [h'.holds.get k hk, Cmdhist.current, if_neg (by omega)]
  simp only [hr, ho, hidx]

theorem Keeps.up (h' : Keeps cfg h H) (hH : H ≠ []) (buf : Nat → UInt8) {k : Nat} (hk : k ≤ H.length) :
    (edit cfg buflen h ⟨buf, replicate k .up⟩).status = .reading ∧
      (edit cfg buflen h ⟨buf, replicate k .up⟩).hist.offset = 1 - k ∧
      (0 < k → some (edit cfg buflen h ⟨buf, replicate k .up⟩).line = H[k - 1]?) := by
  induction k with
  | zero => exact ⟨rfl, (h'.offset hH).trans rfl, fun h0 => absurd h0 (by decide)⟩
  | succ k ih =>
    obtain ⟨hs, ho, -⟩ := ih (by omega)
    have hed : Editing h.toRing (edit cfg buflen h ⟨buf, replicate k .up⟩) :=
      editing_edit h'.clean fun c hc => by cases eq_of_mem_replicate hc
    have hnext : edit cfg buflen h ⟨buf, replicate (k + 1) .up⟩ =
        press cfg buflen (edit cfg buflen h ⟨buf, replicate k .up⟩) .up := by
      rw [edit, replicate_succ', replay_append]
      rfl
    rw [hnext, press, Key.bytes, press_arrow hs hed.escape]
    revert hs ho hed
    generalize edit cfg buflen h ⟨buf, replicate k .up⟩ = s
    intro hs ho hed
    have hlen : s.hist.len = H.length := by rw [hed.ring, h'.holds.len]
    have hoff : (s.hist.arrow 0x41).offset = -k := by
      show (if -(s.hist.offset - 1) ≥ s.hist.len then _ else _) = _
      omega
    have hcur : (s.hist.arrow 0x41).current cfg = H[k]? := h'.current (by omega) ((arrow_ring _ _).trans hed.ring) hoff
    obtain ⟨l, hl⟩ : ∃ l, H[k]? = some l := ⟨_, getElem?_eq_getElem (by omega)⟩
    obtain ⟨hline, hhist, hstatus⟩ := endEscape_line cfg { s with escape := 2 } 0x41
    have hpos : 0 < s.hist.len := by omega
    refine ⟨hstatus.trans hs, ?_, fun _ => ?_⟩
    · show (State.endEscape cfg { s with escape := 2 } 0x41).hist.offset = _
      rw [hhist, if_pos hpos, hoff]
      omega
    · show some (State.endEscape cfg { s with escape := 2 } 0x41).line = _
      rw [hline, if_pos hpos, hcur, Nat.add_sub_cancel, hl]
      rfl

/-- In a session whose lines the history is told, the `k`th press of the arrow key brings the `k`th latest line. -/
theorem recall_recent (cfg : Config) (buflen : Nat) {es : List Entry}
    (hes : Guarded (enter cfg buflen) (fun h e => Entered cfg buflen h e ∧ Told (edit cfg buflen h e)) .init es) :
    (replay (enter cfg buflen) .init es).len = (recent cfg.histLen (lines cfg buflen .init es)).length ∧
      ∀ (buf : Nat → UInt8) (k : Nat), 1 ≤ k → k ≤ (replay (enter cfg buflen) .init es).len →
        some (edit cfg buflen (replay (enter cfg buflen) .init es) ⟨buf, List.replicate k .up⟩).line =
          (recent cfg.histLen (lines cfg buflen .init es))[k - 1]? := by
  have hnil : recent cfg.histLen [] = [] := take_nil
  have hkeeps : Keeps cfg (replay (enter cfg buflen) .init es) (recent cfg.histLen (lines cfg buflen .init es)) :=
    Keeps.session [] (by rw [hnil]; exact keeps_init cfg) hes
  refine ⟨hkeeps.holds.len, fun buf k h1 hk => ?_⟩
  rw [hkeeps.holds.len] at hk
  have hne : recent cfg.histLen (lines cfg buflen .init es) ≠ [] := fun h0 => by
    rw [h0] at hk
    exact absurd hk (by simp; omega)
  exact (hkeeps.up hne buf hk).2.2 h1

end Session

def typed (buf line : List UInt8) : Entry := ⟨fun i => buf.getD i 0, line.map .char⟩

theorem recall_x :
    some (edit .bare 64 (replay (enter .bare 64) .init [typed [] [0x78], typed [] [0x61, 0x62]])
      ⟨fun _ => 0, List.replicate 2 .up⟩).line = some [0x78] := by
  have hes : Guarded (enter .bare 64) (fun h e => Entered .bare 64 h e ∧ Told (edit .bare 64 h e)) .init
      [typed [] [0x78], typed [] [0x61, 0x62]] :=
    ⟨⟨⟨by simp [typed]; decide, by decide, by decide, by decide⟩, ⟨by decide, by decide, by decide⟩⟩,
      ⟨⟨by simp [typed]; decide, by decide, by decide, by decide⟩, ⟨by decide, by decide, by decide⟩⟩, trivial⟩
  exact ((recall_recent .bare 64 hes).2 (fun _ => 0) 2 (by decide) (by decide)).trans (by decide)

/-- `ab` is entered twice, the second time into the buffer of the first: it is in the history twice. -/
theorem not_recall_repeated :
    lines .bare 64 .init [typed [] [0x78], typed [0x78, 0x0a] [0x61, 0x62], typed [0x61, 0x62, 0x0a] [0x61, 0x62]] =
        [[0x78], [0x61, 0x62], [0x61, 0x62]] ∧
      (edit .bare 64 (replay (enter .bare 64) .init
        [typed [] [0x78], typed [0x78, 0x0a] [0x61, 0x62], typed [0x61, 0x62, 0x0a] [0x61, 0x62]])
        ⟨fun _ => 0, List.replicate 2 .up⟩).line = [0x61, 0x62] ∧
      recent 16 [[0x78], [0x61, 0x62], [0x61, 0x62]] = [[0x61, 0x62], [0x78]] := by
  decide

end NuttxApps.Readline
