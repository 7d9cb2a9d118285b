import NuttxApps.Zmodem.Send

/-!
# The receiver's window and the size of a packet

A receiver that announces a buffer should never be sent more bytes than it holds before it acknowledges them
(`Windowed`). The comparison that should clip the number of bytes is the other way round, so the window is kept exactly
if the whole file fits into the buffer (`window_iff`), or if no data can be sent. `zms_sendpacket` takes another byte of
the file while ten bytes of `scratch` are left; a 32-bit CRC takes six to ten with the type
(`length_nextPacket_lt_iff`).
-/

namespace NuttxApps.Zmodem

open Replay List

def Sender.Windowed (r : Sender) : Prop :=
  ∀ p, .data p ∈ r.sent → p.rcvmax ≠ 0 → p.offset ≤ p.lastoffs + p.rcvmax

def AcksSent (s : Sender × Ret) (e : SInput) : Prop := e.type = .ack → e.value.toNat ≤ s.1.offset

namespace Zms

variable {C : SConfig} {r r' : Sender} {e : SInput} {file : List UInt8} {window : Nat}

theorem fill_le (size : Nat) (f : Flags) (pktsize : Nat) (s : List UInt8) : (fill size f pktsize s).1 ≤ s.length := by
  induction s generalizing f pktsize with
  | nil => exact Nat.le_refl 0
  | cons ch s ih =>
    rw [fill]
    split
    · exact Nat.succ_le_succ (ih _ _)
    · exact Nat.zero_le _

theorem filled_le (C : SConfig) (r : Sender) : (filled C r).1 ≤ r.file.length - r.offset := by
  rw [filled, ← length_drop]
  exact fill_le _ _ _ _

theorem filled_eq_zero (h : C.sndbufsize < 10) (r : Sender) : (filled C r).1 = 0 := by
  rw [filled]
  cases r.file.drop r.offset with
  | nil => rfl
  | cons ch s => rw [fill, if_neg (by omega)]

theorem filled_pos (h : 10 ≤ C.sndbufsize) (hoffset : r.offset < r.file.length) : 0 < (filled C r).1 := by
  rw [filled, drop_eq_getElem_cons hoffset, fill, if_pos (by omega)]
  exact Nat.succ_pos _

structure Placed (C : SConfig) (r : Sender) : Prop where
  zrpos_le : r.zrpos ≤ r.lastoffs
  offset_le : r.offset ≤ r.lastoffs ∨ 10 ≤ C.sndbufsize ∧ r.offset ≤ r.file.length

structure Inv (C : SConfig) (file : List UInt8) (window : Nat) (r : Sender) : Prop where
  windowed : r.Windowed
  based : 1 ≤ r.state.rank → r.file = file ∧ r.rcvmax = window
  placed : 2 ≤ r.state.rank → Placed C r

/-- What does not concern the window: no data are sent, and nothing that was acknowledged is forgotten. -/
structure Keeps (r r' : Sender) : Prop where
  rcvmax : r'.rcvmax = r.rcvmax
  file : r'.file = r.file
  offset : r'.offset = r.offset
  zrpos : r'.zrpos = r.zrpos
  lastoffs : r.lastoffs ≤ r'.lastoffs
  sent : ∀ p, .data p ∈ r'.sent → .data p ∈ r.sent

theorem Windowed.keeps (h : r.Windowed) (hk : Keeps r r') : r'.Windowed := fun p hp => h p (hk.sent p hp)

theorem Placed.keeps (h : Placed C r) (hk : Keeps r r') : Placed C r' where
  zrpos_le := by
    rw [hk.zrpos]
    exact Nat.le_trans h.zrpos_le hk.lastoffs
  offset_le := by
    rw [hk.offset, hk.file]
    exact h.offset_le.imp_left (Nat.le_trans · hk.lastoffs)

theorem Inv.keeps (h : Inv C file window r) (hk : Keeps r r') (hrank : r'.state.rank ≤ r.state.rank) :
    Inv C file window r' where
  windowed := Windowed.keeps h.windowed hk
  based := fun h1 => by
    rw [hk.file, hk.rcvmax]
    exact h.based (by omega)
  placed := fun h2 => (h.placed (by omega)).keeps hk

theorem mem_sendhdr {type : EventType} {value : UInt32} {p : Subpacket} (h : .data p ∈ (r.sendhdr type value).sent) :
    .data p ∈ r.sent := by
  simpa [Sender.sendhdr] using h

section

variable (r : Sender) (state : SState) (wait : Bool)

theorem keeps_state : Keeps r { r with state := state, wait := wait } :=
  ⟨rfl, rfl, rfl, rfl, le_rfl, fun _ => id⟩

theorem keeps_sendhdr (type : EventType) (value : UInt32) :
    Keeps r ({ r with state := state, wait := wait }.sendhdr type value) :=
  ⟨rfl, rfl, rfl, rfl, le_rfl, fun _ => mem_sendhdr⟩

end

structure Live (C : SConfig) (file : List UInt8) (window : Nat) (r : Sender) : Prop extends Placed C r where
  windowed : r.Windowed
  file_eq : r.file = file
  rcvmax_eq : r.rcvmax = window

theorem Live.inv (h : Live C file window r) : Inv C file window r :=
  ⟨h.windowed, fun _ => ⟨h.file_eq, h.rcvmax_eq⟩, fun _ => h.toPlaced⟩

theorem Inv.live (h : Inv C file window r) (hrank : 2 ≤ r.state.rank) : Live C file window r :=
  { h.placed (by omega) with
    windowed := h.windowed
    file_eq := (h.based (by omega)).1
    rcvmax_eq := (h.based (by omega)).2 }

theorem Live.keeps (h : Live C file window r) (hk : Keeps r r') : Live C file window r' :=
  { h.toPlaced.keeps hk with
    windowed := Windowed.keeps h.windowed hk
    file_eq := hk.file.trans h.file_eq
    rcvmax_eq := hk.rcvmax.trans h.rcvmax_eq }

theorem Placed.emit (h : Placed C r) (wait : Bool) : Placed C (emit C wait r).1 where
  zrpos_le := h.zrpos_le
  offset_le := by
    have hoffset : (Zms.emit C wait r).1.offset = r.offset + (filled C r).1 := rfl
    have hplaced := h.offset_le
    have hle := filled_le C r
    rw [hoffset]
    rcases lt_or_ge C.sndbufsize 10 with hsize | hsize
    · rw [filled_eq_zero hsize]
      exact hplaced
    · change _ ≤ r.lastoffs ∨ 10 ≤ C.sndbufsize ∧ _ ≤ r.file.length
      omega

theorem Placed.within (h : Placed C r) (hfits : r.file.length ≤ r.rcvmax ∨ C.sndbufsize < 10) :
    r.offset ≤ r.lastoffs + r.rcvmax := by
  have := h.offset_le
  omega

theorem keeps_settle (type : UInt8) (r : Sender) : Keeps r (settle type r) := by
  rw [settle]
  split
  · exact keeps_sendhdr r _ _ _ _
  · split
    · exact keeps_state r _ _
    · exact keeps_state r _ _

theorem keeps_acknowledge (e : SInput) (r : Sender) : Keeps r (acknowledge e r) := by
  rw [acknowledge]
  split
  · exact ⟨rfl, rfl, rfl, rfl, Nat.le_of_lt ‹_›, fun _ => id⟩
  · exact keeps_state r _ _

theorem inv_zrinit (h : Inv C file window r) {state : SState} (e : SInput) :
    Inv C file window (zrinit C e { r with state := state }).1 := by
  rw [zrinit]
  split
  · exact ⟨fun p hp => h.windowed p (mem_sendhdr hp), nofun, nofun⟩
  · exact ⟨h.windowed, nofun, nofun⟩

theorem Adds.mem {sent sent' : List Sent} (h : Adds sent sent') (p : Subpacket) (hp : .data p ∈ sent') :
    .data p ∈ sent := by
  cases h with
  | nothing => exact hp
  | header _ => simpa using hp

section Fits

variable (hfits : file.length ≤ window ∨ C.sndbufsize < 10)

include hfits

section

variable (h : Live C file window r)

include h

theorem Live.emit (wait : Bool) : Live C file window (emit C wait r).1 := by
  have hplaced := h.toPlaced.emit wait
  refine { hplaced with windowed := fun p hp => ?_, file_eq := h.file_eq, rcvmax_eq := h.rcvmax_eq }
  rcases mem_append.mp hp with hp | hp
  · exact h.windowed p hp
  · obtain rfl := Sent.data.inj (mem_singleton.mp hp)
    intro _
    refine hplaced.within ?_
    have hfile : (Zms.emit C wait r).1.file = file := h.file_eq
    have hrcvmax : (Zms.emit C wait r).1.rcvmax = window := h.rcvmax_eq
    rw [hfile, hrcvmax]
    exact hfits

theorem Live.round (wait : Bool) : Live C file window (round C wait r).1 := by
  rw [Zms.round]
  split
  · exact h.keeps (keeps_state r _ _)
  · exact (Live.emit hfits h _).keeps (keeps_settle _ _)

theorem Live.rounds (n : Nat) (wait : Bool) : Live C file window (rounds C n wait r) := by
  induction n generalizing wait r with
  | zero => exact Live.round hfits h wait
  | succ n ih =>
    rw [Zms.rounds]
    split
    · exact ih (Live.round hfits h wait) _
    · exact Live.round hfits h wait

theorem inv_sendpacket (e : SInput) : Inv C file window (sendpacket C e r).1 :=
  (Live.rounds hfits h e.quiet false).inv

end

theorem inv_startfiledata (h : Inv C file window r) (hrank : 1 ≤ r.state.rank) (state : SState) (nerrors : UInt16)
    (wait : Bool) (e : SInput) :
    Inv C file window (startfiledata C e { r with state := state, nerrors := nerrors, wait := wait }).1 := by
  have hlive : Live C file window
      { r with
        state := state, nerrors := nerrors, wait := wait
        zrpos := e.value.toNat, offset := e.value.toNat, lastoffs := e.value.toNat } :=
    { zrpos_le := le_rfl
      offset_le := .inl le_rfl
      windowed := h.windowed
      file_eq := (h.based hrank).1
      rcvmax_eq := (h.based hrank).2 }
  rw [startfiledata]
  split
  · exact inv_sendpacket hfits (hlive.keeps (keeps_sendhdr _ _ _ _ _)) e
  · exact hlive.inv

theorem inv_sendnak (h : Live C file window r) (e : SInput) : Inv C file window (sendnak C e r).1 := by
  have hlive : Live C file window { r with offset := r.zrpos } :=
    { zrpos_le := h.zrpos_le
      offset_le := .inl h.zrpos_le
      windowed := h.windowed
      file_eq := h.file_eq
      rcvmax_eq := h.rcvmax_eq }
  rw [sendnak]
  split
  · exact inv_sendpacket hfits hlive e
  · exact hlive.inv

theorem inv_step {s : Sender × Ret} (h : Inv C file window s.1) (e : SInput) : Inv C file window (step C s e).1 := by
  have hlive (h2 : 2 ≤ s.1.state.rank) (state : SState) : Live C file window { s.1 with state := state } :=
    (h.live h2).keeps (keeps_state s.1 _ _)
  have hacked (h2 : 2 ≤ s.1.state.rank) (state : SState) := (hlive h2 state).keeps (keeps_acknowledge e _)
  rw [step]
  split
  · have htakes := event_takes C s.1 e
    generalize event C s.1 e = next at htakes
    cases htakes with
    | quiet hcalm hadds => exact h.keeps ⟨rfl, rfl, rfl, rfl, le_rfl, hadds.mem⟩ hcalm.rank
    | rinit _ => exact inv_zrinit h e
    | restart hrank _ => exact inv_startfiledata hfits h hrank _ _ _ e
    | packet hstate _ => exact inv_sendpacket hfits (hlive (by rw [hstate]; decide) _) e
    | waitack hstate _ => exact inv_sendpacket hfits ((hacked (by rw [hstate]; decide) _).keeps (keeps_sendhdr ..)) e
    | nak hstate _ => exact inv_sendnak hfits (hlive (by rcases hstate with h | h | h <;> rw [h] <;> decide) _) e
    | doneack hstate _ => exact ((hacked (by rw [hstate]; decide) _).keeps (keeps_sendhdr ..)).inv
    | resend hstate _ => exact h.keeps (keeps_sendhdr s.1 _ _ _ _) (by rw [hstate]; exact le_rfl)
  · exact h

end Fits

/-! ## The window is not kept -/

/-- The sender has sent no more than the window behind the acknowledged `pos`, and more than the window is left of the
file. -/
structure Behind (C : SConfig) (window pos rest : Nat) (r : Sender) : Prop where
  rcvmax : r.rcvmax = window
  lastoffs : r.lastoffs = pos
  pos_le : pos ≤ r.offset
  offset_le : r.offset ≤ pos + window
  rest_le : pos + rest ≤ r.file.length
  rest_dvd : (2 ^ 32 : Int) ∣ r.file.length - pos - rest

section Behind

variable {pos rest : Nat} (hsize : 10 ≤ C.sndbufsize) (hwindow : 0 < window) (hlt : window < rest)
  (hrest : rest < 2 ^ 31)

include hwindow hlt hrest in
theorem Behind.sndsize (h : Behind C window pos rest r) : 0 < (Zms.sndsize r).1 ∧ (Zms.sndsize r).2 = true := by
  obtain ⟨hrcvmax, hlastoffs, hpos, hoffset, -, hdvd⟩ := h
  have hleft : ((r.file.length : Int) - r.offset).bmod (2 ^ 32) = rest - (r.offset - pos) := by
    rw [Int.bmod_def]
    split <;> omega
  have hunacked : ((r.offset : Int) - r.lastoffs).bmod (2 ^ 32) = r.offset - pos := by
    rw [Int.bmod_def, hlastoffs]
    split <;> omega
  have hclip : r.rcvmax ≠ 0 ∧ (rest - (r.offset - pos) : Int) + (r.offset - pos) > r.rcvmax := by omega
  have hmaximum : ¬ (rest - (r.offset - pos) : Int) < r.rcvmax - (r.offset - pos) := by omega
  rw [Zms.sndsize]
  simp only [hleft, hunacked, if_pos hclip, if_neg hmaximum]
  exact ⟨by omega, trivial⟩

include hwindow hlt hrest in
theorem Behind.rounds_eq (h : Behind C window pos rest r) (n : Nat) (wait : Bool) :
    Zms.rounds C n wait r =
      { (Zms.emit C true r).1 with
        state := if r.offset + (filled C r).1 = r.file.length then .senddone else .sendwait } := by
  obtain ⟨hpos, hwait⟩ := h.sndsize hwindow hlt hrest
  have htype : (Zms.emit C true r).2 = 0x6b := by
    simp only [Zms.emit, pkttype]
    split <;> simp
  have hround : (Zms.round C wait r).1 =
      { (Zms.emit C true r).1 with
        state := if r.offset + (filled C r).1 = r.file.length then .senddone else .sendwait } := by
    rw [Zms.round, hwait, Bool.or_true, if_neg (by omega)]
    dsimp only
    rw [htype, settle, if_neg (by decide), if_pos rfl]
    simp [Zms.emit]
  cases n with
  | zero => exact hround
  | succ n =>
    refine (if_neg fun hagain => ?_).trans hround
    have hsending := hagain.2
    rw [hround] at hsending
    split at hsending <;> cases hsending

include hsize hwindow hlt hrest in
theorem Behind.rounds (h : Behind C window pos rest r) (n : Nat) (wait : Bool) :
    ¬ (Zms.rounds C n wait r).Windowed ∨
      Behind C window pos rest (Zms.rounds C n wait r) ∧ (Zms.rounds C n wait r).state = .sendwait ∧
        r.offset < (Zms.rounds C n wait r).offset := by
  rw [h.rounds_eq hwindow hlt hrest n wait]
  obtain ⟨hrcvmax, hlastoffs, hpos, hoffset, hrest_le, hdvd⟩ := h
  have hfilled : 0 < (filled C r).1 := filled_pos hsize (by omega)
  rcases Nat.lt_or_ge (pos + window) (r.offset + (filled C r).1) with hbeyond | hwithin
  · refine .inl fun hwindowed => ?_
    have := hwindowed _ (mem_append_right _ (mem_singleton_self _)) (by dsimp only; omega)
    dsimp only at this
    omega
  · refine .inr ⟨⟨hrcvmax, hlastoffs, ?_, hwithin, hrest_le, hdvd⟩, ?_, ?_⟩
    · exact Nat.le_trans hpos (Nat.le_add_right _ _)
    · exact if_neg (by omega)
    · exact Nat.lt_add_of_pos_right hfilled

def ackOf (pos : Nat) : SInput := ⟨.ack, UInt32.ofNat pos, true, 0⟩

theorem step_ackOf (hpos : pos < 2 ^ 32) (h : Behind C window pos rest r) (hstate : r.state = .sendwait) :
    Zms.step C (r, .ok) (ackOf pos) =
      (Zms.rounds C 0 false ({ r with state := .sending }.sendhdr .data (UInt32.ofNat r.offset)), .ok) := by
  have hfind : (evtable C r.state).find .ack = (.sending, sendwaitack C) := by rw [hstate]; rfl
  have hvalue : (UInt32.ofNat pos).toNat = pos := UInt32.toNat_ofNat_of_lt' hpos
  have hack : acknowledge (ackOf pos) { r with state := .sending } = { r with state := .sending } := by
    rw [acknowledge, if_neg]
    simp only [ackOf, hvalue, h.lastoffs, Nat.lt_irrefl, not_false_eq_true]
  rw [Zms.step, if_pos rfl, event, show (ackOf pos).type = .ack from rfl, hfind]
  simp only [sendwaitack, hack]
  rfl

include hsize hwindow hlt hrest in
theorem Behind.exists_beyond (hpos : pos < 2 ^ 32) (h : Behind C window pos rest r) (hstate : r.state = .sendwait) :
    ∃ events, Guarded (Zms.step C) AcksSent (r, .ok) events ∧ ¬ (replay (Zms.step C) (r, .ok) events).1.Windowed := by
  -- every acknowledgement brings the offset nearer to the end of the window
  induction hk : pos + window - r.offset using Nat.strongRecOn generalizing r with
  | ind k ih =>
    have hack : AcksSent (r, .ok) (ackOf pos) := fun _ => by
      rw [show (ackOf pos).value.toNat = pos from UInt32.toNat_ofNat_of_lt' hpos]
      exact h.pos_le
    have hsent : Behind C window pos rest ({ r with state := .sending }.sendhdr .data (UInt32.ofNat r.offset)) :=
      ⟨h.rcvmax, h.lastoffs, h.pos_le, h.offset_le, h.rest_le, h.rest_dvd⟩
    have hstep := step_ackOf hpos h hstate
    rcases hsent.rounds hsize hwindow hlt hrest 0 false with hbeyond | ⟨hbehind, hwait, hoffset⟩
    · refine ⟨[ackOf pos], ⟨hack, trivial⟩, ?_⟩
      rw [replay_cons, replay_nil, hstep]
      exact hbeyond
    · have hnear := hbehind.offset_le
      obtain ⟨events, hguarded, hbeyond⟩ := ih _ (by change r.offset < _ at hoffset; omega) hbehind hwait rfl
      refine ⟨ackOf pos :: events, ⟨hack, ?_⟩, ?_⟩
      · rw [hstep]
        exact hguarded
      · rw [replay_cons, hstep]
        exact hbeyond

end Behind

theorem exists_rest {length : Nat} (h : window < length) (hwindow : window < 65536) :
    ∃ pos rest : Nat, pos < 2 ^ 32 ∧ window < rest ∧ rest < 2 ^ 31 ∧ pos + rest ≤ length ∧
      (2 ^ 32 : Int) ∣ length - pos - rest := by
  rcases lt_or_ge length (2 ^ 31) with hsmall | hlarge
  · exact ⟨0, length, by omega, h, hsmall, by omega, by omega⟩
  · exact ⟨(length - (2 ^ 31 - 1)) % 2 ^ 32, 2 ^ 31 - 1, by omega, by omega, by omega, by omega, by omega⟩

def rposOf (pos : Nat) : SInput := ⟨.rpos, UInt32.ofNat pos, true, 0⟩

def begin (C : SConfig) (r : Sender) (hello : SInput) (file : List UInt8) (fflags : UInt32) : Sender × Ret :=
  sendfile file fflags (zrinit C hello r).1

section

variable (C : SConfig) (r : Sender) (hello : SInput) (file : List UInt8) (fflags : UInt32)

include hello

theorem rcvmax_begin : (begin C r hello file fflags).1.rcvmax = hello.rcvmax := by
  rw [begin, zrinit]
  split <;> rfl

theorem inv_begin : Inv C file hello.rcvmax (begin C r hello file fflags).1 where
  windowed := fun p hp => by simp [begin, sendfile, Sender.sendhdr] at hp
  based := fun _ => ⟨rfl, rcvmax_begin C r hello file fflags⟩
  placed := nofun

end

theorem step_rposOf {pos : Nat} (hpos : pos < 2 ^ 32) (r : Sender) (hstate : r.state = .filewait) :
    Zms.step C (r, .ok) (rposOf pos) =
      (Zms.rounds C 0 false
        ({ r with state := .sending, wait := false, zrpos := pos, offset := pos, lastoffs := pos }.sendhdr .data
          (UInt32.ofNat pos)), .ok) := by
  have hfind : (evtable C r.state).find .rpos = (.sending, sendfiledata C) := by rw [hstate]; rfl
  have hvalue : (UInt32.ofNat pos).toNat = pos := UInt32.toNat_ofNat_of_lt' hpos
  rw [Zms.step, if_pos rfl, event, show (rposOf pos).type = .rpos from rfl, hfind]
  simp only [sendfiledata, startfiledata, rposOf, if_true, hvalue]
  rfl

theorem exists_beyond_begin (C : SConfig) (r : Sender) (hello : SInput) (file : List UInt8) (fflags : UInt32)
    (hsize : 10 ≤ C.sndbufsize) (hwindow : 0 < hello.rcvmax) (h : hello.rcvmax < file.length) :
    ∃ events, Guarded (Zms.step C) AcksSent (begin C r hello file fflags) events ∧
      ¬ (replay (Zms.step C) (begin C r hello file fflags) events).1.Windowed := by
  obtain ⟨pos, rest, hpos, hlt, hrest, hle, hdvd⟩ := exists_rest h (Nat.mod_lt _ (by decide))
  have hstep := step_rposOf (C := C) hpos (begin C r hello file fflags).1 rfl
  have hbehind : Behind C hello.rcvmax pos rest
      ({ (begin C r hello file fflags).1 with
        state := .sending, wait := false, zrpos := pos, offset := pos, lastoffs := pos }.sendhdr .data
          (UInt32.ofNat pos)) :=
    ⟨rcvmax_begin C r hello file fflags, rfl, le_rfl, Nat.le_add_right _ _, hle, hdvd⟩
  rcases hbehind.rounds hsize hwindow hlt hrest 0 false with hbeyond | ⟨hwaiting, hstate, -⟩
  · refine ⟨[rposOf pos], ⟨nofun, trivial⟩, ?_⟩
    rw [replay_cons, replay_nil]
    exact hstep ▸ hbeyond
  · obtain ⟨events, hguarded, hbeyond⟩ := hwaiting.exists_beyond hsize hwindow hlt hrest hpos hstate
    refine ⟨rposOf pos :: events, ⟨nofun, ?_⟩, ?_⟩
    · exact hstep ▸ hguarded
    · rw [replay_cons]
      exact hstep ▸ hbeyond

end Zms

/-- Once the receiver has announced a buffer, no headers and timeouts, with acknowledgements of no more than was sent,
make the sender exceed it if and only if the file fits into the buffer or the send buffer is too small for data. -/
theorem window_iff (C : SConfig) (r : Sender) (hello : SInput) (file : List UInt8) (fflags : UInt32)
    (h : hello.rcvmax ≠ 0) :
    (∀ events, Guarded (Zms.step C) AcksSent (Zms.begin C r hello file fflags) events →
        (replay (Zms.step C) (Zms.begin C r hello file fflags) events).1.Windowed) ↔
      file.length ≤ hello.rcvmax ∨ C.sndbufsize < 10 := by
  constructor
  · intro hall
    by_contra hnot
    obtain ⟨events, hguarded, hbeyond⟩ := Zms.exists_beyond_begin C r hello file fflags
      (by omega) (by omega) (by omega)
    exact hbeyond (hall events hguarded)
  · intro hfits events _
    have hinv : Zms.Inv C file hello.rcvmax (replay (Zms.step C) (Zms.begin C r hello file fflags) events).1 :=
      replay_keeps (I := fun s : Sender × Ret => Zms.Inv C file hello.rcvmax s.1)
        (fun s e _ hs => Zms.inv_step hfits hs e) (Zms.inv_begin C r hello file fflags)
    exact hinv.windowed

def Sender.init : Sender where
  state := .start
  flags := ⟨false, false, false⟩
  wait := false
  eof := false
  nerrors := 0
  dpkttype := 0
  fflags := 0
  rcvmax := 0
  file := []
  offset := 0
  lastoffs := 0
  zrpos := 0
  sent := []

def defaultBuffer : SConfig := ⟨512, false, false, false⟩

def smallWindow : SInput := ⟨.rinit, 256, true, 0⟩

theorem window_kept_small :
    smallWindow.rcvmax ≠ 0 ∧
      ∀ events,
        Guarded (Zms.step defaultBuffer) AcksSent
            (Zms.begin defaultBuffer .init smallWindow (List.replicate 256 0x61) 0) events →
          (replay (Zms.step defaultBuffer)
            (Zms.begin defaultBuffer .init smallWindow (List.replicate 256 0x61) 0) events).1.Windowed :=
  ⟨by decide, (window_iff defaultBuffer .init smallWindow (List.replicate 256 0x61) 0 (by decide)).mpr
    (.inl (by rw [length_replicate]; decide))⟩

theorem window_exceeded :
    Guarded (Zms.step defaultBuffer) AcksSent
        (Zms.begin defaultBuffer .init smallWindow (List.replicate 300 0x61) 0) [⟨.rpos, 0, true, 0⟩] ∧
      ¬ (replay (Zms.step defaultBuffer)
        (Zms.begin defaultBuffer .init smallWindow (List.replicate 300 0x61) 0)
        [⟨.rpos, 0, true, 0⟩]).1.Windowed := by
  refine ⟨⟨nofun, trivial⟩, fun h => ?_⟩
  have hsent : Sent.data ⟨0x6b, List.replicate 300 0x61, 300, 0, 256⟩ ∈
      (replay (Zms.step defaultBuffer)
        (Zms.begin defaultBuffer .init smallWindow (List.replicate 300 0x61) 0)
        [⟨.rpos, 0, true, 0⟩]).1.sent := by
    decide +kernel
  have hwithin : 300 ≤ 0 + 256 := h _ hsent (Nat.succ_ne_zero 255)
  exact absurd hwithin (by decide)

open Crc (be16 le32)

variable (K : Crcs) (f : Flags) (s : List UInt8)

namespace Zms

section

variable (K : Crcs) (f : Flags) (type : UInt8) (data : List UInt8)

/-- The bytes of the CRC of the data and the type, which is taken byte by byte. -/
def checksum : List UInt8 :=
  if f.crc32 then le32 (~~~ (data ++ [type]).foldl (fun c b => K.crc32 [b] c) 0xffffffff)
  else be16 ((data ++ [type]).foldl (fun c b => K.crc16 [b] c) 0)

def scratch : List UInt8 :=
  encode f data ++ [0x18, type] ++ encode (after f data) (checksum K f type data)

end

-- With the type `ZCRCW`, it is the packet of `zm_senddata`.
example (K : Crcs) (f : Flags) (data : List UInt8) : scratch K f 0x6b data = packet K f data := rfl

section

variable (K : Crcs) (C : SConfig) (wait : Bool) (r : Sender)

def dataFlags : Flags := { r.flags with atsign := false }

def nextData : List UInt8 := (r.file.drop r.offset).take (filled C r).1

def nextPacket : List UInt8 := scratch K (dataFlags r) (emit C wait r).2 (nextData C r)

def crcEscapes : Nat :=
  escapeCount (after (dataFlags r) (nextData C r)) (checksum K (dataFlags r) (emit C wait r).2 (nextData C r))

/-- The CRC has 16 bits; or the escaped data leave eleven bytes; or ten, and not all bytes of the CRC are escaped; or
nine, and at most two are; or eight, and one is. -/
def HasRoom : Prop :=
  let left := C.sndbufsize - (encode (dataFlags r) (nextData C r)).length
  r.flags.crc32 = false ∨ 11 ≤ left ∨ left = 10 ∧ crcEscapes K C wait r ≤ 3 ∨
    left = 9 ∧ crcEscapes K C wait r ≤ 2 ∨ left = 8 ∧ crcEscapes K C wait r ≤ 1

end

theorem fill_eq_length (size : Nat) (f : Flags) (pktsize : Nat) (s : List UInt8) :
    (fill size f pktsize s).2 = pktsize + (encode f (s.take (fill size f pktsize s).1)).length := by
  induction s generalizing f pktsize with
  | nil => rfl
  | cons ch s ih =>
    rw [fill]
    split
    · rw [ih, take_succ_cons, encode, length_append, add_assoc]
    · rfl

theorem fill_add_le {size pktsize : Nat} (h : pktsize + 8 ≤ size) (f : Flags) (s : List UInt8) :
    (fill size f pktsize s).2 + 8 ≤ size := by
  induction s generalizing f pktsize with
  | nil => exact h
  | cons ch s ih =>
    rw [fill]
    split_ifs with hroom
    · refine ih ?_ _
      have hput : (putzdle f ch).1.length ≤ 2 := by
        rw [putzdle]
        split <;> simp
      omega
    · exact h

theorem length_nextData_add_le {C : SConfig} (h : 8 ≤ C.sndbufsize) (r : Sender) :
    (encode (dataFlags r) (nextData C r)).length + 8 ≤ C.sndbufsize := by
  have hle : (fill C.sndbufsize (dataFlags r) 0 (r.file.drop r.offset)).2 + 8 ≤ C.sndbufsize :=
    fill_add_le (by omega) (dataFlags r) (r.file.drop r.offset)
  rwa [fill_eq_length, zero_add] at hle

theorem length_checksum (type : UInt8) (data : List UInt8) :
    (checksum K f type data).length = if f.crc32 then 4 else 2 := by
  rw [checksum]
  split <;> rfl

variable (C : SConfig) (wait : Bool) (r : Sender)

theorem length_nextPacket :
    (nextPacket K C wait r).length =
      (encode (dataFlags r) (nextData C r)).length + 2 +
        ((if r.flags.crc32 then 4 else 2) + crcEscapes K C wait r) := by
  rw [nextPacket, scratch, length_append, length_append, length_encode (after _ _), length_checksum,
    crcEscapes]
  rfl

theorem crcEscapes_le : crcEscapes K C wait r ≤ if r.flags.crc32 then 4 else 2 := by
  have hlen := length_checksum K (dataFlags r) (emit C wait r).2 (nextData C r)
  exact hlen ▸ escapeCount_le _ _

end Zms

open Zms

/-- The packet is shorter than `scratch`, for any CRC routines, just if few enough bytes of a 32-bit CRC are escaped. -/
theorem length_nextPacket_lt_iff (C : SConfig) (h : 64 ≤ C.sndbufsize) (wait : Bool) (r : Sender) :
    (nextPacket K C wait r).length < C.sndbufsize ↔ HasRoom K C wait r := by
  have hleft := length_nextData_add_le (C := C) (by omega) r
  have hcrc := crcEscapes_le K C wait r
  rw [length_nextPacket, HasRoom]
  cases hflag : r.flags.crc32 with
  | false =>
    rw [hflag] at hcrc
    simp only [Bool.false_eq_true, if_false, true_or, iff_true] at hcrc ⊢
    omega
  | true =>
    rw [hflag] at hcrc
    simp only [if_true, Bool.true_eq_false, false_or] at hcrc ⊢
    omega

def escapedFile : Sender :=
  { Sender.init with
    state := .sending, flags := ⟨true, false, false⟩, dpkttype := 0x6a
    file := replicate 13 0x11 ++ replicate 15 0x18 }

def smallBuffer : SConfig := ⟨64, false, false, false⟩

theorem length_nextPacket_short :
    64 ≤ smallBuffer.sndbufsize ∧
      (nextPacket .library smallBuffer false { escapedFile with file := escapedFile.file.dropLast }).length < 64 :=
  ⟨by decide,
    (length_nextPacket_lt_iff .library smallBuffer (by decide) false _).mpr (by unfold HasRoom; decide +kernel)⟩

/-- The file takes 56 bytes, two bytes of the CRC are escaped, and the packet fills the buffer. -/
theorem length_nextPacket_full :
    (nextPacket .library smallBuffer false escapedFile).length = 64 ∧
      ¬ (nextPacket .library smallBuffer false escapedFile).length < smallBuffer.sndbufsize := by
  have hfull : (nextPacket .library smallBuffer false escapedFile).length = 64 := by decide +kernel
  exact ⟨hfull, hfull ▸ lt_irrefl 64⟩

end NuttxApps.Zmodem
