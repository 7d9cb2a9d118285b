import NuttxApps.Zmodem.Window

/-!
# The descriptor of the file that is sent

`zms_sendpacket` reads the file from wherever the descriptor `infd` stands, and counts the bytes in `offset`; the model
of the sender reads at `offset` instead. Here the actions that read the file or seek in it are modelled again with a
descriptor (`reads`), and the two models agree (`matches_step`).
-/

namespace NuttxApps.Zmodem

open Replay
open List

/-- With `CONFIG_SYSTEM_ZMODEM_SNDFILEBUF`, and what is read behind the end of the file. -/
structure FConfig extends SConfig where
  sndfilebuf : Bool
  behind : Nat → UInt8

structure Reader where
  sender : Sender
  pos : Nat

namespace Infd

abbrev Action := SInput → Reader → Reader × Ret

section

variable (C : FConfig)

def byte (s : Reader) (i : Nat) : UInt8 := s.sender.file.getD (s.pos + i) (C.behind (s.pos + i))

def fill (read : Nat → UInt8) : Nat → Flags → Nat → Nat → List UInt8 × Nat
  | 0, _, pktsize, _ => ([], pktsize)
  | left + 1, f, pktsize, i =>
    if pktsize + 10 ≤ C.sndbufsize then
      let r := fill read left (putzdle f (read i)).2 (pktsize + (putzdle f (read i)).1.length) (i + 1)
      (read i :: r.1, r.2)
    else ([], pktsize)

def filled (s : Reader) : List UInt8 × Nat :=
  fill C (byte C s) (s.sender.file.length - s.sender.offset) { s.sender.flags with atsign := false } 0 0

/-- The packet is sent. With `CONFIG_SYSTEM_ZMODEM_SNDFILEBUF` the descriptor is set to `offset` behind it; without, it
has moved on. -/
def emit (wait : Bool) (s : Reader) : Reader × UInt8 :=
  let r := s.sender
  let data := (filled C s).1
  let offset := r.offset + data.length
  let eof := decide (offset = r.file.length)
  let type := Zms.pkttype r wait eof (filled C s).2
  let p : Subpacket := ⟨type, data, offset, r.lastoffs, r.rcvmax⟩
  (⟨{ r with wait := false, eof := eof, offset := offset, sent := r.sent ++ [.data p] },
    if C.sndfilebuf then offset else max s.pos (min (s.pos + data.length) r.file.length)⟩, type)

def round (wait : Bool) (s : Reader) : Reader × Bool :=
  let wait := wait || (Zms.sndsize s.sender).2
  if (Zms.sndsize s.sender).1 ≤ 0 then ({ s with sender := { s.sender with state := .sendwait } }, wait)
  else
    let sent := emit C wait s
    ({ sent.1 with sender := Zms.settle sent.2 sent.1.sender }, wait)

def rounds : Nat → Bool → Reader → Reader
  | 0, wait, s => (round C wait s).1
  | n + 1, wait, s =>
    let next := round C wait s
    if C.rcvsample ∧ next.1.sender.state = .sending then rounds n next.2 next.1 else next.1

def sendpacket : Action := fun e s => (rounds C e.quiet false s, .ok)

def startfiledata : Action := fun e s =>
  let r := { s.sender with zrpos := e.value.toNat, offset := e.value.toNat, lastoffs := e.value.toNat }
  if e.seekok then sendpacket C e ⟨r.sendhdr .data e.value, e.value.toNat⟩ else (⟨r, s.pos⟩, .eio)

def sendfiledata : Action := fun e s => startfiledata C e { s with sender := { s.sender with wait := false } }

def sendwaitack : Action := fun e s =>
  sendpacket C e { s with sender := (Zms.acknowledge e s.sender).sendhdr .data (UInt32.ofNat s.sender.offset) }

def sendnak : Action := fun e s =>
  let r := { s.sender with offset := s.sender.zrpos }
  if e.seekok then sendpacket C e ⟨r, r.offset⟩ else (⟨r, s.pos⟩, .eio)

def sendrpos : Action := fun e s =>
  startfiledata C e { s with sender := { s.sender with nerrors := s.sender.nerrors + 1, wait := true } }

/-- The entries of the tables with an action that uses the descriptor. -/
def reads : SState → EventType → Option Action
  | .filewait, .rpos => some (sendfiledata C)
  | .crcwait, .rpos => some (sendfiledata C)
  | .sending, .ack => some (sendpacket C)
  | .sending, .timeout => some (sendpacket C)
  | .sendwait, .ack => some (sendwaitack C)
  | .sending, .rpos => some (sendrpos C)
  | .sendwait, .rpos => some (sendrpos C)
  | .senddone, .rpos => some (sendrpos C)
  | .sendeof, .rpos => some (sendrpos C)
  | .sending, .nak => some (sendnak C)
  | .sendwait, .nak => some (sendnak C)
  | .senddone, .nak => some (sendnak C)
  | _, _ => none

def event (s : Reader) (e : SInput) : Reader × Ret :=
  let entry := (Zms.evtable C.toSConfig s.sender.state).find e.type
  match reads C s.sender.state e.type with
  | some action => action e { s with sender := { s.sender with state := entry.1 } }
  | none =>
    let r := entry.2 e { s.sender with state := entry.1 }
    (⟨r.1, s.pos⟩, r.2)

def step (s : Reader × Ret) (e : SInput) : Reader × Ret := if s.2 = .ok then event C s.1 e else s

/-- `zms_send` behind the `ZRINIT` header of the receiver: `zms_sendfile` opens the file. -/
def begin (r : Sender) (hello : SInput) (file : List UInt8) (fflags : UInt32) : Reader × Ret :=
  let t := Zms.begin C.toSConfig r hello file fflags
  (⟨t.1, 0⟩, t.2)

end

def inPlace (r : Sender) : Reader := ⟨r, r.offset⟩

variable {C : FConfig} {r : Sender} {e : SInput}

theorem fill_eq (C : FConfig) {read : Nat → UInt8} {data : List UInt8} {i : Nat}
    (h : ∀ j < data.length, read (i + j) = data.getD j 0) (f : Flags) (pktsize : Nat) :
    fill C read data.length f pktsize i =
      (data.take (Zms.fill C.sndbufsize f pktsize data).1, (Zms.fill C.sndbufsize f pktsize data).2) := by
  induction data generalizing i f pktsize with
  | nil => rfl
  | cons ch data ih =>
    have hhead : read i = ch := h 0 (Nat.succ_pos _)
    have htail : ∀ j < data.length, read (i + 1 + j) = data.getD j 0 := by
      intro j hj
      rw [add_assoc, add_comm 1 j]
      exact h (j + 1) (Nat.succ_lt_succ hj)
    rw [length_cons, fill, Zms.fill]
    split
    · rw [hhead, ih htail]
      rfl
    · rfl

theorem filled_inPlace (C : FConfig) (r : Sender) :
    filled C (inPlace r) =
      ((r.file.drop r.offset).take (Zms.filled C.toSConfig r).1, (Zms.filled C.toSConfig r).2) := by
  have hread : ∀ j < (r.file.drop r.offset).length, byte C (inPlace r) (0 + j) = (r.file.drop r.offset).getD j 0 := by
    intro j hj
    have hlt : r.offset + j < r.file.length := by
      rw [length_drop] at hj
      omega
    simp [byte, inPlace, getD_eq_getElem?_getD, hlt]
  rw [filled, Zms.filled, ← fill_eq C hread, length_drop]
  rfl

theorem emit_inPlace (C : FConfig) (wait : Bool) (r : Sender) :
    emit C wait (inPlace r) =
      (inPlace (Zms.emit C.toSConfig wait r).1, (Zms.emit C.toSConfig wait r).2) := by
  have hle := Zms.filled_le C.toSConfig r
  have hlen : ((r.file.drop r.offset).take (Zms.filled C.toSConfig r).1).length = (Zms.filled C.toSConfig r).1 :=
    length_take_of_le (by rwa [length_drop])
  have hpos : max r.offset (min (r.offset + (Zms.filled C.toSConfig r).1) r.file.length) =
      r.offset + (Zms.filled C.toSConfig r).1 := by
    omega
  rw [emit, filled_inPlace]
  simp only [inPlace, hlen, hpos, ite_self]
  rfl

theorem offset_settle (type : UInt8) (r : Sender) : (Zms.settle type r).offset = r.offset := by
  rw [Zms.settle]
  split
  · rfl
  · split <;> rfl

theorem round_inPlace (C : FConfig) (wait : Bool) (r : Sender) :
    round C wait (inPlace r) = (inPlace (Zms.round C.toSConfig wait r).1, (Zms.round C.toSConfig wait r).2) := by
  have hround : round C wait (inPlace r) =
      if (Zms.sndsize r).1 ≤ 0 then (inPlace { r with state := .sendwait }, wait || (Zms.sndsize r).2)
      else
        let sent := emit C (wait || (Zms.sndsize r).2) (inPlace r)
        ({ sent.1 with sender := Zms.settle sent.2 sent.1.sender }, wait || (Zms.sndsize r).2) := rfl
  rw [hround, Zms.round, emit_inPlace]
  split
  · rfl
  · simp only [inPlace, offset_settle]

theorem rounds_inPlace (C : FConfig) (n : Nat) (wait : Bool) (r : Sender) :
    rounds C n wait (inPlace r) = inPlace (Zms.rounds C.toSConfig n wait r) := by
  induction n generalizing wait r with
  | zero => rw [rounds, Zms.rounds, round_inPlace]
  | succ n ih =>
    have hstate : (inPlace (Zms.round C.toSConfig wait r).1).sender = (Zms.round C.toSConfig wait r).1 := rfl
    rw [rounds, Zms.rounds, round_inPlace]
    rw [ih, hstate]
    split <;> rfl

structure Matches (s : Reader × Ret) (t : Sender × Ret) : Prop where
  sender : s.1.sender = t.1
  ret : s.2 = t.2
  pos : s.2 = .ok → s.1.pos = s.1.sender.offset

section

variable (C : FConfig) (e : SInput) (r : Sender)

theorem matches_sendpacket : Matches (sendpacket C e (inPlace r)) (Zms.sendpacket C.toSConfig e r) := by
  rw [sendpacket, rounds_inPlace]
  exact ⟨rfl, rfl, fun _ => rfl⟩

theorem matches_startfiledata (pos : Nat) :
    Matches (startfiledata C e ⟨r, pos⟩) (Zms.startfiledata C.toSConfig e r) := by
  rw [startfiledata, Zms.startfiledata]
  split
  · exact matches_sendpacket C e _
  · exact ⟨rfl, rfl, by simp⟩

theorem matches_sendnak (pos : Nat) : Matches (sendnak C e ⟨r, pos⟩) (Zms.sendnak C.toSConfig e r) := by
  rw [sendnak, Zms.sendnak]
  split
  · exact matches_sendpacket C e _
  · exact ⟨rfl, rfl, by simp⟩

theorem matches_sendwaitack : Matches (sendwaitack C e (inPlace r)) (Zms.sendwaitack C.toSConfig e r) := by
  have hoffset : ((Zms.acknowledge e r).sendhdr .data (UInt32.ofNat r.offset)).offset = r.offset := by
    rw [Zms.acknowledge]
    split <;> rfl
  have hsame : (⟨(Zms.acknowledge e r).sendhdr .data (UInt32.ofNat r.offset), r.offset⟩ : Reader) =
      inPlace ((Zms.acknowledge e r).sendhdr .data (UInt32.ofNat r.offset)) := by
    rw [inPlace, hoffset]
  rw [sendwaitack]
  dsimp only [inPlace]
  rw [hsame]
  exact matches_sendpacket C e _

end

theorem offset_event (h : reads C r.state e.type = none) : (Zms.event C.toSConfig r e).1.offset = r.offset := by
  have htakes := Zms.event_takes C.toSConfig r e
  generalize Zms.event C.toSConfig r e = next at htakes
  cases htakes with
  | quiet _ _ => rfl
  | rinit _ =>
    rw [Zms.zrinit]
    split <;> rfl
  | restart hrank htype =>
    rw [htype] at h
    generalize r.state = state at h hrank
    cases state <;> simp [reads, SState.rank] at h hrank
  | packet hstate htype => rcases htype with htype | htype <;> rw [hstate, htype] at h <;> cases h
  | waitack hstate htype => rw [hstate, htype] at h; cases h
  | nak hstate htype => rcases hstate with hstate | hstate | hstate <;> rw [hstate, htype] at h <;> cases h
  | doneack _ _ =>
    rw [Zms.senddoneack, Zms.acknowledge]
    split <;> rfl
  | resend _ _ => rfl

theorem matches_reads {action : Action} (h : reads C r.state e.type = some action) :
    Matches (action e ⟨{ r with state := ((Zms.evtable C.toSConfig r.state).find e.type).1 }, r.offset⟩)
      (Zms.event C.toSConfig r e) := by
  rw [Zms.event]
  generalize r.state = state at h ⊢
  generalize e.type = type at h ⊢
  unfold reads at h
  split at h
  case h_13 => simp at h
  all_goals obtain rfl := Option.some.inj h
  · exact matches_startfiledata C e _ _
  · exact matches_startfiledata C e _ _
  · exact matches_sendpacket C e _
  · exact matches_sendpacket C e _
  · exact matches_sendwaitack C e _
  · exact matches_startfiledata C e _ _
  · exact matches_startfiledata C e _ _
  · exact matches_startfiledata C e _ _
  · exact matches_startfiledata C e _ _
  · exact matches_sendnak C e _ _
  · exact matches_sendnak C e _ _
  · exact matches_sendnak C e _ _

theorem matches_step {s : Reader × Ret} {t : Sender × Ret} (h : Matches s t) (e : SInput) :
    Matches (step C s e) (Zms.step C.toSConfig t e) := by
  rw [step, Zms.step, ← h.ret]
  split_ifs with hok
  · obtain ⟨⟨r, pos⟩, ret⟩ := s
    obtain ⟨r', ret'⟩ := t
    obtain rfl : r = r' := h.sender
    obtain rfl : pos = r.offset := h.pos hok
    rw [event]
    cases hreads : reads C r.state e.type with
    | some action => exact matches_reads hreads
    | none => exact ⟨rfl, rfl, fun _ => (offset_event hreads).symm⟩
  · exact h

end Infd

end NuttxApps.Zmodem
