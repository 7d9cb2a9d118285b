import NuttxApps.Framework.Bytes
import NuttxApps.Framework.Replay
import NuttxApps.Framework.Ring

/-!
# The line editor

`step` is one turn of the loop of `readline_common` on a character or the end of the input, with the options for the
command history, tab completion, builtin and external commands; what is echoed is left out. The buffer is the memory
from `buf` on, with the places that are written (`State.written`).
-/

namespace NuttxApps.Readline

open Bytes Replay

/-- The configuration, and the commands that a tab can complete. -/
structure Config where
  /-- `RL_CMDHIST_LEN` -/
  histLen : Nat
  /-- `RL_CMDHIST_LINELEN` -/
  histLinelen : Nat
  (maxBuiltins maxExtcmds taskNameSize : Nat)
  (builtins extcmds : List (List UInt8))
  histLen_pos : 0 < histLen
  names : ∀ name ∈ builtins ++ extcmds, 0 ∉ name

def Config.bare : Config where
  histLen := 16
  histLinelen := 80
  maxBuiltins := 64
  maxExtcmds := 64
  taskNameSize := 31
  builtins := []
  extcmds := []
  histLen_pos := by decide
  names := by simp

/-- `struct cmdhist_s`, each line as far as its terminator. -/
structure Cmdhist extends Ring (List UInt8) where
  offset : Int

def Cmdhist.init : Cmdhist where
  cells _ := []
  head := 0
  len := 0
  offset := 0

inductive Status
  | reading
  | eof
  | returned (n : Nat)
deriving DecidableEq

structure State where
  buf : Nat → UInt8
  (nch escape : Nat)
  hist : Cmdhist
  written : List Nat
  status : Status

def start (buf : Nat → UInt8) (hist : Cmdhist) : State := ⟨buf, 0, 0, hist, [], .reading⟩

variable (s : State)

def State.line : List UInt8 := bytesAt s.buf 0 s.nch

def State.put (i : Nat) (c : UInt8) : State :=
  { s with buf := Function.update s.buf i c, written := i :: s.written }

def State.puts (s : State) (i : Nat) : List UInt8 → State
  | [] => s
  | c :: cs => (s.put i c).puts (i + 1) cs

def State.setLine (l : List UInt8) : State := { (s.puts 0 l).put l.length 0 with nch := l.length }

def sameUpTo (buf : Nat → UInt8) : Nat → Nat → List UInt8 → Bool
  | _, 0, _ => true
  | i, _ + 1, [] => buf i == 0
  | i, n + 1, c :: t => buf i == c && sameUpTo buf (i + 1) n t

section Editor

variable (cfg : Config) (buflen : Nat)

/-- The offset after an arrow key; any other key leaves it. -/
def Cmdhist.arrow (h : Cmdhist) (ch : UInt8) : Cmdhist :=
  if ch = 0x41 then { h with offset := if -(h.offset - 1) ≥ h.len then -(h.len - 1) else h.offset - 1 }
  else if ch = 0x42 then { h with offset := if h.offset + 1 > 1 then 1 else h.offset + 1 }
  else h

def Cmdhist.current (h : Cmdhist) : Option (List UInt8) :=
  if h.offset = 1 then none
  else
    let idx : Int := h.head + h.offset
    let idx := if idx < 0 then idx + cfg.histLen else if idx ≥ cfg.histLen then idx - cfg.histLen else idx
    some (h.cells idx.toNat)

def State.endEscape (s : State) (ch : UInt8) : State :=
  if 0 < s.hist.len then
    let s := { s with hist := s.hist.arrow ch, nch := 0 }
    match s.hist.current cfg with
    | none => s
    | some l => s.setLine l
  else s

def State.save (s : State) : Cmdhist :=
  if 1 ≤ s.nch then
    if sameUpTo s.buf 0 (s.nch + 1) (s.hist.cells s.hist.head) then { s.hist with offset := 1 }
    else
      let l := (bytesAt s.buf 0 (min s.nch (cfg.histLinelen - 1))).takeWhile (· ≠ 0)
      { s.hist.toRing.push cfg.histLen l with offset := 1 }
  else s.hist

def State.newline (s : State) : State :=
  { ((({ s with hist := s.save cfg }).put s.nch 0x0a).put (s.nch + 1) 0) with
    nch := s.nch + 1
    status := .returned (s.nch + 1) }

/-- `count_builtin_matches` and `nsh_extmatch_count`: the names that begin with the line, up to a number of them. -/
def countMatches (max : Nat) (names : List (List UInt8)) : List (List UInt8) :=
  (names.filter fun name => sameUpTo s.buf 0 s.nch name).take max

/-- A name is shown: it is copied to `tmp_name` if this is empty, which is cut to what they have in common. -/
def addName (tmp name : List UInt8) : List UInt8 :=
  let tmp := if tmp.head? = some 0 then splice tmp 0 (name.take (tmp.length - 1) ++ [0]) else tmp
  tmp.mapIdx fun j c => if j < name.length ∧ name.getD j 0 ≠ c then 0 else c

/-- `tmp_name` after all names, as far as its terminator. -/
def common (names : List (List UInt8)) : List UInt8 :=
  (names.foldl addName (List.replicate (cfg.taskNameSize + 1) 0)).takeWhile (· ≠ 0)

/-- What a tab finds: nothing, one name, or what several ones have in common. -/
inductive Completion
  | nothing
  | name (text : List UInt8)
  | several (text : List UInt8)

def State.completion (s : State) : Completion :=
  let builtin := countMatches s cfg.maxBuiltins cfg.builtins
  let ext := countMatches s cfg.maxExtcmds cfg.extcmds
  if s.nch < 1 then .nothing
  else if builtin.length + ext.length = 1 then
    .name (if builtin.length = 1 then builtin.headD [] else ext.headD [])
  else if 1 < builtin.length + ext.length then .several (common cfg (ext ++ builtin))
  else .nothing

def Completion.text : Completion → List UInt8
  | .nothing => []
  | .name t => t
  | .several t => t

def State.tabCompletion (s : State) : State :=
  match s.completion cfg with
  | .nothing => s
  | .name t => { s.puts s.nch (t.drop s.nch) with nch := if s.nch < t.length then t.length else s.nch }
  | .several t =>
    { s.puts 0 (t.take (buflen - 1) ++ [0]) with nch := if s.nch < t.length then t.length else s.nch }

def iscntrl (ch : UInt8) : Prop := ch < 0x20 ∨ ch = 0x7f

instance (ch : UInt8) : Decidable (iscntrl ch) := inferInstanceAs (Decidable (_ ∨ _))

def State.type (s : State) (ch : UInt8) : State :=
  let t := { s.put s.nch ch with nch := s.nch + 1 }
  if t.nch + 1 ≥ buflen then { t.put t.nch 0 with status := .returned t.nch } else t

/-- One turn of the loop of `readline_common`, on a character or the end of the file. -/
def step (s : State) (ch : Option UInt8) : State :=
  match s.status, ch with
  | .reading, none => if 0 < s.nch then { s.put s.nch 0 with status := .returned s.nch } else { s with status := .eof }
  | .reading, some ch =>
    if s.escape ≠ 0 then
      if ch ≠ 0x5b ∨ s.escape = 2 then { s.endEscape cfg ch with escape := 0 } else { s with escape := 2 }
    else if ch = 0x08 ∨ ch = 0x7f then { s with nch := s.nch - 1 }
    else if ch = 0x1b then { s with escape := 1 }
    else if ch = 0x0a then s.newline cfg
    else if ¬ iscntrl ch then s.type buflen ch
    else if ch = 0x09 then s.tabCompletion cfg buflen
    else s
  | _, _ => s

def readlineCommon (buf : Nat → UInt8) (hist : Cmdhist) (ins : List (Option UInt8)) : State :=
  if buflen < 2 then { (start buf hist).put 0 0 with status := .returned 0 }
  else replay (step cfg buflen) (start buf hist) ins

end Editor

section Frame

variable (s : State) (i : Nat) (c : UInt8) (l : List UInt8)

@[simp] theorem put_hist : (s.put i c).hist = s.hist := rfl

@[simp] theorem put_status : (s.put i c).status = s.status := rfl

theorem puts_frame : (s.puts i l).escape = s.escape ∧ (s.puts i l).hist = s.hist ∧ (s.puts i l).status = s.status := by
  induction l generalizing s i with
  | nil => exact ⟨rfl, rfl, rfl⟩
  | cons c l ih => exact ih (s.put i c) (i + 1)

@[simp] theorem puts_escape : (s.puts i l).escape = s.escape := (puts_frame s i l).1

@[simp] theorem puts_hist : (s.puts i l).hist = s.hist := (puts_frame s i l).2.1

@[simp] theorem puts_status : (s.puts i l).status = s.status := (puts_frame s i l).2.2

theorem mem_put {k : Nat} : k ∈ (s.put i c).written ↔ k = i ∨ k ∈ s.written := List.mem_cons

theorem mem_puts {k : Nat} : k ∈ (s.puts i l).written ↔ k ∈ s.written ∨ i ≤ k ∧ k < i + l.length := by
  induction l generalizing s i with
  | nil =>
    show k ∈ s.written ↔ k ∈ s.written ∨ i ≤ k ∧ k < i
    refine ⟨.inl, fun h => h.elim id fun h => ?_⟩
    omega
  | cons c l ih =>
    rw [State.puts, ih, mem_put, List.length_cons]
    constructor
    · rintro ((rfl | h) | h)
      · exact .inr (by omega)
      · exact .inl h
      · exact .inr (by omega)
    · rintro (h | h)
      · exact .inl (.inr h)
      · by_cases hk : k = i
        · exact .inl (.inl hk)
        · exact .inr (by omega)

end Frame

theorem tabCompletion_frame (cfg : Config) (buflen : Nat) (s : State) :
    (s.tabCompletion cfg buflen).nch = max s.nch (s.completion cfg).text.length ∧
      (s.tabCompletion cfg buflen).escape = s.escape ∧ (s.tabCompletion cfg buflen).hist = s.hist ∧
      (s.tabCompletion cfg buflen).status = s.status := by
  have hmax (t : List UInt8) : (if s.nch < t.length then t.length else s.nch) = max s.nch t.length := by
    split <;> omega
  unfold State.tabCompletion
  cases s.completion cfg with
  | nothing => simp [Completion.text]
  | name t => simp [Completion.text, hmax]
  | several t => simp [Completion.text, hmax]

section Step

variable {cfg : Config} {buflen : Nat} {s : State}

theorem step_ended (hs : s.status ≠ .reading) (ch : Option UInt8) : step cfg buflen s ch = s := by
  unfold step
  split <;> first | rfl | contradiction

theorem step_key (hs : s.status = .reading) (c : UInt8) : step cfg buflen s (some c) =
    if s.escape ≠ 0 then
      if c ≠ 0x5b ∨ s.escape = 2 then { s.endEscape cfg c with escape := 0 } else { s with escape := 2 }
    else if c = 0x08 ∨ c = 0x7f then { s with nch := s.nch - 1 }
    else if c = 0x1b then { s with escape := 1 }
    else if c = 0x0a then s.newline cfg
    else if ¬ iscntrl c then s.type buflen c
    else if c = 0x09 then s.tabCompletion cfg buflen
    else s := by
  simp only [step, hs]

theorem reading_of_step {ch : Option UInt8} (h : (step cfg buflen s ch).status = .reading) : s.status = .reading := by
  by_contra hs
  rw [step_ended hs] at h
  exact hs h

theorem arrow_ring (h : Cmdhist) (c : UInt8) : (h.arrow c).toRing = h.toRing := by
  unfold Cmdhist.arrow
  split_ifs <;> rfl

theorem endEscape_ring (s : State) (c : UInt8) : (s.endEscape cfg c).hist.toRing = s.hist.toRing := by
  unfold State.endEscape
  split_ifs
  · dsimp only
    split <;> simp [State.setLine, arrow_ring]
  · rfl

theorem endEscape_some {c : UInt8} {l : List UInt8} (hlen : 0 < s.hist.len)
    (hl : (s.hist.arrow c).current cfg = some l) :
    s.endEscape cfg c = State.setLine { s with hist := s.hist.arrow c, nch := 0 } l := by
  simp only [State.endEscape, if_pos hlen, hl]

theorem step_ring {ch : Option UInt8} (h : (step cfg buflen s ch).status = .reading) :
    (step cfg buflen s ch).hist.toRing = s.hist.toRing := by
  have hs := reading_of_step h
  cases ch with
  | none =>
    simp only [step, hs]
    split <;> rfl
  | some c =>
    rw [step_key hs] at h ⊢
    split_ifs at h ⊢
    · exact endEscape_ring s c
    · rfl
    · rfl
    · rfl
    · cases h
    · rw [(tabCompletion_frame cfg buflen s).2.2.1]
    · rfl
    · unfold State.type
      dsimp only
      split <;> rfl

end Step

end NuttxApps.Readline
