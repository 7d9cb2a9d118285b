import NuttxApps.Zmodem.Infd
import NuttxApps.Zmodem.Recover

/-!
# Where the data of a packet belong

A receiver takes the position of the first packet behind a `ZDATA` header from that header, and each packet behind it
continues the one before (`position`); the packet should hold the bytes of the file from there (`Follows`). Every action
keeps that, except for `zms_sendnak`: it goes back to the position of the last `ZRPOS` and sends packets from there
without a `ZDATA` header.
-/

namespace NuttxApps.Zmodem

open Replay

/-- The number in the last `ZDATA` header, and the bytes since. -/
def position : Option Nat → List Sent → Option Nat
  | pos, [] => pos
  | pos, .header type value :: log => position (if type = .data then some value.toNat else pos) log
  | pos, .data p :: log => position (pos.map (· + p.data.length)) log

/-- Every packet holds the bytes of the file at its position, and every `ZEOF` its size. -/
def Follows (file : List UInt8) : Option Nat → List Sent → Prop
  | _, [] => True
  | pos, .header type value :: log =>
    (type = .eof → value.toNat = file.length) ∧ Follows file (if type = .data then some value.toNat else pos) log
  | pos, .data p :: log =>
    (∃ n, pos = some n ∧ p.data = (file.drop n).take p.data.length) ∧ Follows file (pos.map (· + p.data.length)) log

/-- A `ZNAK` for data of the file comes while the sender stands where the last `ZRPOS` put it. -/
def NakInPlace (r : Sender) (e : SInput) : Prop :=
  e.type = .nak → r.state = .sending ∨ r.state = .sendwait ∨ r.state = .senddone → r.offset = r.zrpos

section

variable {file : List UInt8} {pos : Option Nat} {a b : List Sent}

theorem position_append : position pos (a ++ b) = position (position pos a) b := by
  induction a generalizing pos with
  | nil => rfl
  | cons x a ih => cases x <;> exact ih

theorem follows_append : Follows file pos (a ++ b) ↔ Follows file pos a ∧ Follows file (position pos a) b := by
  induction a generalizing pos with
  | nil => simp [Follows, position]
  | cons x a ih =>
    cases x with
    | header type value => exact (and_congr_right fun _ => ih).trans and_assoc.symm
    | data p => exact (and_congr_right fun _ => ih).trans and_assoc.symm

end

namespace Zms

variable {C : SConfig} {file : List UInt8} {r r' : Sender} {e : SInput}

/-- What was sent is right, and the type of the packets of a stream is not the one for the last packet. -/
structure Sound (file : List UInt8) (r : Sender) : Prop where
  file_eq : r.file = file
  stream : r.dpkttype ≠ 0x68
  follows : Follows file none r.sent

structure Cued (file : List UInt8) (r : Sender) : Prop extends Sound file r where
  position : position none r.sent = some r.offset
  offset_lt : r.offset < 2 ^ 32

structure Aligned (file : List UInt8) (r : Sender) : Prop extends Sound file r where
  cued : r.state.active → Cued file r
  ended : r.state = .senddone ∨ r.state = .sendeof → r.offset = file.length

theorem Sound.moves (h : Sound file r) (state : SState) (wait : Bool) :
    Sound file { r with state := state, wait := wait } :=
  ⟨h.file_eq, h.stream, h.follows⟩

theorem Cued.moves (h : Cued file r) (state : SState) (wait : Bool) :
    Cued file { r with state := state, wait := wait } :=
  ⟨h.toSound.moves state wait, h.position, h.offset_lt⟩

theorem Sound.sendhdr (h : Sound file r) {type : EventType} {value : UInt32}
    (htype : type = .eof → value.toNat = file.length) : Sound file (r.sendhdr type value) :=
  ⟨h.file_eq, h.stream, follows_append.mpr ⟨h.follows, show _ ∧ True from ⟨htype, trivial⟩⟩⟩

theorem Sound.aligned (h : Sound file r) (hstate : r.state.active = false) : Aligned file r := by
  refine ⟨h, fun hactive => absurd hactive (Bool.eq_false_iff.mp hstate), ?_⟩
  rintro (hended | hended) <;> rw [hended] at hstate <;> simp [SState.active] at hstate

theorem Cued.aligned (h : Cued file r) (hended : r.state = .senddone ∨ r.state = .sendeof → r.offset = file.length) :
    Aligned file r :=
  ⟨h.toSound, fun _ => h, hended⟩

def Good (file : List UInt8) (p : Sender × Ret) : Prop :=
  Follows file none p.1.sent ∧ (p.2 = .ok → Aligned file p.1)

theorem Aligned.good (h : Aligned file r) (ret : Ret) : Good file (r, ret) := ⟨h.follows, fun _ => h⟩

theorem Sound.failed (h : Sound file r) {ret : Ret} (hret : ret ≠ .ok) : Good file (r, ret) :=
  ⟨h.follows, fun hok => absurd hok hret⟩

theorem pkttype_eq_zcrce (hstream : r.dpkttype ≠ 0x68) {wait eof : Bool} {pktsize : Nat}
    (h : pkttype r wait eof pktsize = 0x68) : eof = true := by
  by_contra hnot
  rw [pkttype, if_neg hnot] at h
  split at h
  · simp at h
  · exact hstream h

section

variable (hlen : file.length < 2 ^ 32)

include hlen

section

variable (h : Cued file r)

include h

theorem Cued.emit (C : SConfig) (wait : Bool) : Cued file (Zms.emit C wait r).1 := by
  have hle := filled_le C r
  have hdata : ((r.file.drop r.offset).take (filled C r).1).length = (filled C r).1 :=
    List.length_take_of_le (by rwa [List.length_drop])
  refine ⟨⟨h.file_eq, h.stream, ?_⟩, ?_, ?_⟩
  · refine follows_append.mpr ⟨h.follows, ⟨r.offset, h.position, ?_⟩, trivial⟩
    rw [hdata, h.file_eq]
  · show Zmodem.position none (r.sent ++ [_]) = some (r.offset + (filled C r).1)
    rw [position_append, h.position]
    simp only [Zmodem.position, Option.map_some, hdata]
  · show r.offset + (filled C r).1 < 2 ^ 32
    rw [h.file_eq] at hle
    have := h.offset_lt
    omega

theorem Cued.sendeof (hended : r.offset = file.length) (state : SState) :
    Aligned file ({ r with state := state }.sendhdr .eof (UInt32.ofNat r.offset)) := by
  have hsize : (UInt32.ofNat r.offset).toNat = file.length := by
    rw [hended]
    exact UInt32.toNat_ofNat_of_lt' hlen
  have hsound : Sound file ({ r with state := state }.sendhdr .eof (UInt32.ofNat r.offset)) :=
    (h.toSound.moves state r.wait).sendhdr fun _ => hsize
  refine Cued.aligned ⟨hsound, ?_, h.offset_lt⟩ fun _ => hended
  rw [Sender.sendhdr, position_append, h.position]
  rfl

theorem Cued.settle (C : SConfig) (wait : Bool) :
    Aligned file (Zms.settle (Zms.emit C wait r).2 (Zms.emit C wait r).1) := by
  have hcued := h.emit hlen C wait
  have heof : (Zms.emit C wait r).1.eof = true → (Zms.emit C wait r).1.offset = file.length := by
    intro hend
    have hoffset : r.offset + (filled C r).1 = r.file.length := of_decide_eq_true hend
    rwa [h.file_eq] at hoffset
  rw [Zms.settle]
  split
  · rename_i htype
    exact hcued.sendeof hlen (heof (pkttype_eq_zcrce h.stream htype)) .sendeof
  · split
    · refine (hcued.moves _ _).aligned fun hended => heof ?_
      by_contra hnot
      simp [hnot] at hended
    · exact (hcued.moves _ _).aligned (by simp)

theorem Cued.round (C : SConfig) (wait : Bool) : Aligned file (Zms.round C wait r).1 := by
  rw [Zms.round]
  split
  · exact (h.moves _ _).aligned (by simp)
  · exact h.settle hlen C _

theorem Cued.rounds (C : SConfig) (n : Nat) (wait : Bool) : Aligned file (Zms.rounds C n wait r) := by
  induction n generalizing r wait with
  | zero => exact h.round hlen C wait
  | succ n ih =>
    rw [Zms.rounds]
    split
    · exact ih ((h.round hlen C wait).cued (streams_round C wait r).active) _
    · exact h.round hlen C wait

theorem Cued.sendpacket (C : SConfig) (e : SInput) : Good file (Zms.sendpacket C e r) :=
  (h.rounds hlen C e.quiet false).good .ok

end

theorem Sound.startfiledata (h : Sound file r) (C : SConfig) (e : SInput) : Good file (Zms.startfiledata C e r) := by
  have hsound : Sound file { r with zrpos := e.value.toNat, offset := e.value.toNat, lastoffs := e.value.toNat } :=
    ⟨h.file_eq, h.stream, h.follows⟩
  rw [Zms.startfiledata]
  split
  · refine Cued.sendpacket hlen ⟨hsound.sendhdr (by simp), ?_, e.value.toNat_lt⟩ C e
    rw [Sender.sendhdr, position_append]
    rfl
  · exact hsound.failed (by simp)

theorem Cued.sendwaitack (h : Cued file r) (C : SConfig) (e : SInput) : Good file (Zms.sendwaitack C e r) := by
  obtain ⟨lastoffs, hack⟩ := acknowledge_eq e r
  have hsound : Sound file { r with lastoffs := lastoffs } := ⟨h.file_eq, h.stream, h.follows⟩
  have hvalue : (UInt32.ofNat r.offset).toNat = r.offset := UInt32.toNat_ofNat_of_lt' h.offset_lt
  rw [Zms.sendwaitack, hack]
  refine Cued.sendpacket hlen ⟨hsound.sendhdr (by simp), ?_, h.offset_lt⟩ C e
  rw [Sender.sendhdr, position_append]
  exact congrArg some hvalue

theorem Cued.sendnak (h : Cued file r) (hplace : r.offset = r.zrpos) (C : SConfig) (e : SInput) :
    Good file (Zms.sendnak C e r) := by
  have hsame : { r with offset := r.zrpos } = r := congrArg (fun offset => { r with offset := offset }) hplace.symm
  rw [Zms.sendnak, hsame]
  split
  · exact h.sendpacket hlen C e
  · exact h.toSound.failed (by simp)

theorem Cued.senddoneack (h : Cued file r) (hended : r.offset = file.length) (e : SInput) :
    Good file (Zms.senddoneack e r) := by
  obtain ⟨lastoffs, hack⟩ := acknowledge_eq e r
  have hcued : Cued file { r with lastoffs := lastoffs } :=
    ⟨⟨h.file_eq, h.stream, h.follows⟩, h.position, h.offset_lt⟩
  rw [Zms.senddoneack, hack]
  exact (hcued.sendeof hlen hended .sendeof).good .ok

end

theorem Sound.zrinit (h : Sound file r) (C : SConfig) (e : SInput) : Good file (Zms.zrinit C e r) := by
  rw [Zms.zrinit]
  have hsound (state : SState) (flags : Flags) {rcvmax : Nat} {type : UInt8} (htype : type ≠ 0x68) :
      Sound file { r with state := state, flags := flags, rcvmax := rcvmax, dpkttype := type } :=
    ⟨h.file_eq, htype, h.follows⟩
  have htype : (if e.rcaps.testBit 0 ∧ e.rcaps.testBit 1 ∧ e.rcvmax = 0 then if C.rcvsample then 0x69 else 0x6a
      else 0x6b : UInt8) ≠ 0x68 := by
    split_ifs <;> decide
  split
  · exact (((hsound .initack _ htype).sendhdr (by simp)).aligned rfl).good .ok
  · exact ((hsound .done _ htype).aligned rfl).good .xfrdone

theorem Adds.follows {sent sent' : List Sent} (h : Adds sent sent') (hfollows : Follows file none sent) :
    Follows file none sent' ∧ Zmodem.position none sent' = Zmodem.position none sent := by
  cases h with
  | nothing => exact ⟨hfollows, rfl⟩
  | header hne =>
    refine ⟨follows_append.mpr ⟨hfollows, fun heof => absurd heof hne.2, trivial⟩, ?_⟩
    rw [position_append, Zmodem.position, if_neg hne.1]
    rfl

theorem Aligned.quiet (h : Aligned file r) {state : SState} {wait : Bool} {sent : List Sent} {type : EventType}
    {ret : Ret} (hcalm : Calm r.state type state ret) (hadds : Adds r.sent sent) :
    Aligned file { r with state := state, wait := wait, sent := sent } := by
  obtain ⟨hfollows, hposition⟩ := hadds.follows h.follows
  have hsound : Sound file { r with state := state, wait := wait, sent := sent } := ⟨h.file_eq, h.stream, hfollows⟩
  refine ⟨hsound, fun hactive => ?_, fun hended => h.ended ?_⟩
  · have hcued : Cued file r := by
      refine h.cued ?_
      rcases hcalm.active hactive with heq | ⟨heq, -⟩
      · exact heq ▸ hactive
      · rw [heq]
        rfl
    exact ⟨hsound, hposition.trans hcued.position, hcued.offset_lt⟩
  · have hsame : state = r.state := by
      rcases hended with rfl | rfl
      · exact (hcalm.active rfl).resolve_right (by simp)
      · exact (hcalm.active rfl).resolve_right (by simp)
    exact hsame ▸ hended

theorem good_step (hlen : file.length < 2 ^ 32) {s : Sender × Ret} (h : Good file s) (hnak : NakInPlace s.1 e)
    (C : SConfig) : Good file (step C s e) := by
  rw [step]
  split_ifs with hok
  · have haligned := h.2 hok
    have hsound := haligned.toSound
    have hcued (state : SState) (hactive : s.1.state.active) : Cued file { s.1 with state := state } :=
      (haligned.cued hactive).moves state _
    have htakes := event_takes C s.1 e
    generalize event C s.1 e = next at htakes
    cases htakes with
    | quiet hcalm hadds => exact (haligned.quiet hcalm hadds).good _
    | rinit _ => exact (hsound.moves _ _).zrinit C e
    | restart _ _ =>
      refine Sound.startfiledata hlen ?_ C e
      exact ⟨hsound.file_eq, hsound.stream, hsound.follows⟩
    | packet hstate _ => exact (hcued _ (by rw [hstate]; rfl)).sendpacket hlen C e
    | waitack hstate _ => exact (hcued _ (by rw [hstate]; rfl)).sendwaitack hlen C e
    | nak hstate htype =>
      refine (hcued .sending ?_).sendnak hlen (hnak htype hstate) C e
      rcases hstate with hstate | hstate | hstate <;> rw [hstate] <;> rfl
    | doneack hstate _ =>
      exact (hcued .sendwait (by rw [hstate]; rfl)).senddoneack hlen (haligned.ended (.inl hstate)) e
    | resend hstate _ =>
      exact ((haligned.cued (by rw [hstate]; rfl)).sendeof hlen (haligned.ended (.inr hstate)) .sendeof).good .ok
  · exact h

theorem good_begin (C : SConfig) (r : Sender) (hello : SInput) (file : List UInt8) (fflags : UInt32) :
    Good file (begin C r hello file fflags) := by
  have hsound : Sound file (begin C r hello file fflags).1 := by
    refine ⟨rfl, ?_, by simp [begin, sendfile, Sender.sendhdr, Follows]⟩
    rw [begin, sendfile, Sender.sendhdr, zrinit]
    split <;> simp only [sendzsinit, Sender.sendhdr] <;> split_ifs <;> decide
  exact (hsound.aligned rfl).good .ok

end Zms

/-- In every run in which no `ZNAK` finds the sender beyond the position of the last `ZRPOS`, the packets hold the bytes
of the file where they belong, and every `ZEOF` its size. -/
theorem follows_of_nakInPlace (C : FConfig) (r : Sender) (hello : SInput) (file : List UInt8) (fflags : UInt32)
    (hlen : file.length < 2 ^ 32) (evs : List SInput)
    (hnak : Guarded (Infd.step C) (fun s e => NakInPlace s.1.sender e) (Infd.begin C r hello file fflags) evs) :
    Follows file none (replay (Infd.step C) (Infd.begin C r hello file fflags) evs).1.sender.sent := by
  -- the sender is the one of the model without the descriptor, in step
  have hinv : Along (Infd.step C)
      (fun s => ∃ t, Infd.Matches s t ∧ Zms.Good file t) (Infd.begin C r hello file fflags) evs := by
    refine along_of_guarded (fun s e hs hnak => ?_)
      ⟨_, ⟨rfl, rfl, fun _ => rfl⟩, Zms.good_begin C.toSConfig r hello file fflags⟩ hnak
    obtain ⟨t, hmatches, hgood⟩ := hs
    exact ⟨_, Infd.matches_step hmatches e, Zms.good_step hlen hgood (hmatches.sender ▸ hnak) C.toSConfig⟩
  obtain ⟨t, hmatches, hgood⟩ := hinv evs.length
  rw [List.take_length] at hmatches
  rw [hmatches.sender]
  exact hgood.1

def defaultReader : FConfig := ⟨defaultBuffer, false, fun _ => 0xff⟩

/-- A `ZNAK` at the end of the file, where the last `ZRPOS` put the sender. -/
theorem follows_rpos :
    Follows [1, 2, 3] none
      (replay (Infd.step defaultReader) (Infd.begin defaultReader .init smallWindow [1, 2, 3] 0)
        [headerWith .rpos 0, headerWith .rpos 3, headerWith .nak 0]).1.sender.sent :=
  follows_of_nakInPlace defaultReader .init smallWindow [1, 2, 3] 0 (by decide)
    [headerWith .rpos 0, headerWith .rpos 3, headerWith .nak 0]
    ⟨by simp [NakInPlace, headerWith], by simp [NakInPlace, headerWith], fun _ _ => by decide +kernel, trivial⟩

/-- A `ZNAK` behind the packet makes the sender send it again, where the byte behind it belongs. -/
theorem not_follows_nak :
    ¬ Follows [1, 2, 3] none
      (replay (Infd.step defaultReader) (Infd.begin defaultReader .init smallWindow [1, 2, 3] 0)
        [headerWith .rpos 0, headerWith .nak 0]).1.sender.sent := by
  have hsent : (replay (Infd.step defaultReader) (Infd.begin defaultReader .init smallWindow [1, 2, 3] 0)
      [headerWith .rpos 0, headerWith .nak 0]).1.sender.sent =
      [.header .file 0, .header .data 0, .data ⟨0x6b, [1, 2, 3], 3, 0, 256⟩, .data ⟨0x6b, [1, 2, 3], 3, 0, 256⟩] := by
    decide +kernel
  rw [hsent]
  simp [Follows]

end NuttxApps.Zmodem
