import NuttxApps.Framework.Replay
import NuttxApps.Zmodem.Encode
import NuttxApps.Zmodem.Events
import Mathlib.Algebra.GroupWithZero.Nat
import Mathlib.Algebra.Ring.Int.Defs

/-!
# Sending files

The state machine of `zm_send.c`. `zms_sendpacket` sends one packet; while the line is quiet, streaming goes on with the
next one. An offset is any number, and `int` has 32 bits, so what is left of a file and what is not yet acknowledged can
wrap. Writes to the remote peer succeed; `lseek` can fail.
-/

namespace NuttxApps.Zmodem

open Replay

inductive SState
  | start
  | initack
  | filewait
  | crcwait
  | sending
  | sendwait
  | senddone
  | sendeof
  | finish
  | command
  | message
  | done
deriving DecidableEq

/-- `CONFIG_SYSTEM_ZMODEM_SNDBUFSIZE`, `_RCVSAMPLE` and `_ALWAYSSINT`, and whether there is an attention string. -/
structure SConfig where
  sndbufsize : Nat
  (rcvsample alwayssint attn : Bool)

/-- An event: the number in the header that came last, whether `lseek` succeeds, and how often `zm_rcvpending`
finds nothing. -/
structure SInput where
  type : EventType
  value : UInt32
  seekok : Bool
  quiet : Nat

/-- A data packet of the file, and the offsets and the size of the receiver's buffer once it is sent. -/
structure Subpacket where
  type : UInt8
  data : List UInt8
  (offset lastoffs rcvmax : Nat)
deriving DecidableEq

inductive Sent
  | header (type : EventType) (value : UInt32)
  | data (p : Subpacket)
deriving DecidableEq

/-- `struct zms_state_s`; `file` is what is in the file, and `sent` what was sent since it was begun. -/
structure Sender where
  state : SState
  flags : Flags
  (wait eof : Bool)
  nerrors : UInt16
  dpkttype : UInt8
  fflags : UInt32
  rcvmax : Nat
  file : List UInt8
  (offset lastoffs zrpos : Nat)
  sent : List Sent

variable (C : SConfig) (r : Sender) (e : SInput)

/-- The size of the receiver's buffer in a `ZRINIT` header. -/
def SInput.rcvmax : Nat := e.value.toNat % 65536

def SInput.rcaps : Nat := e.value.toNat / 65536 % 256 * 256 + e.value.toNat / 16777216

abbrev SAction := SInput → Sender → Sender × Ret

def Sender.sendhdr (type : EventType) (value : UInt32) : Sender :=
  { r with sent := r.sent ++ [.header type value] }

namespace Zms

/-- How many bytes `zms_sendpacket` wants to send, and whether it has to wait. -/
def sndsize : Int × Bool :=
  let left := ((r.file.length : Int) - r.offset).bmod (2 ^ 32)
  let unacked := ((r.offset : Int) - r.lastoffs).bmod (2 ^ 32)
  if r.rcvmax ≠ 0 ∧ left + unacked > r.rcvmax then
    let maximum := r.rcvmax - unacked
    (if left < maximum then maximum else left, true)
  else (left, false)

def fill (sndbufsize : Nat) (f : Flags) (pktsize : Nat) : List UInt8 → Nat × Nat
  | [] => (0, pktsize)
  | ch :: s =>
    if pktsize + 10 ≤ sndbufsize then
      let r := fill sndbufsize (putzdle f ch).2 (pktsize + (putzdle f ch).1.length) s
      (r.1 + 1, r.2)
    else (0, pktsize)

def filled : Nat × Nat :=
  fill C.sndbufsize { r.flags with atsign := false } 0 (r.file.drop r.offset)

/-- `ZCRCE` or `ZCRCW` at the end of the file, `ZCRCW` to wait for an answer, or the type for streaming. -/
def pkttype (wait eof : Bool) (pktsize : Nat) : UInt8 :=
  if eof then if wait ∨ r.rcvmax ≠ 0 ∧ pktsize < 24 then 0x6b else 0x68
  else if r.wait ∨ wait then 0x6b else r.dpkttype

def emit (wait : Bool) (r : Sender) : Sender × UInt8 :=
  let offset := r.offset + (filled C r).1
  let eof := decide (offset = r.file.length)
  let type := pkttype r wait eof (filled C r).2
  let p : Subpacket := ⟨type, (r.file.drop r.offset).take (filled C r).1, offset, r.lastoffs, r.rcvmax⟩
  ({ r with wait := false, eof := eof, offset := offset, sent := r.sent ++ [.data p] }, type)

def settle (type : UInt8) (r : Sender) : Sender :=
  if type = 0x68 then { r with state := .sendeof }.sendhdr .eof (UInt32.ofNat r.offset)
  else if type = 0x6b then { r with state := if r.eof then .senddone else .sendwait }
  else { r with state := .sending }

def round (wait : Bool) (r : Sender) : Sender × Bool :=
  let wait := wait || (sndsize r).2
  if (sndsize r).1 ≤ 0 then ({ r with state := .sendwait }, wait)
  else
    let sent := emit C wait r
    (settle sent.2 sent.1, wait)

/-- The loop of `zms_sendpacket`, where `zm_rcvpending` finds nothing the given number of times. -/
def rounds (C : SConfig) : Nat → Bool → Sender → Sender
  | 0, wait, r => (round C wait r).1
  | n + 1, wait, r =>
    let next := round C wait r
    if C.rcvsample ∧ next.1.state = .sending then rounds C n next.2 next.1 else next.1

def sendpacket : SAction := fun e r => (rounds C e.quiet false r, .ok)

def sendzsinit : SAction := fun _ r => ({ r with state := .initack }.sendhdr .sinit 0, .ok)

def zrinit : SAction := fun e r =>
  let r :=
    { r with
      rcvmax := e.rcvmax
      flags := { r.flags with
        crc32 := r.flags.crc32 || e.rcaps.testBit 5
        escctrl := r.flags.escctrl || e.rcaps.testBit 6 }
      dpkttype :=
        if e.rcaps.testBit 0 ∧ e.rcaps.testBit 1 ∧ e.rcvmax = 0 then if C.rcvsample then 0x69 else 0x6a else 0x6b }
  if C.alwayssint ∨ C.attn then sendzsinit e r else ({ r with state := .done }, .xfrdone)

def attention : SAction := fun _ r =>
  (if r.state = .sending ∨ r.state = .sendwait then { r with state := .sendwait } else r, .ok)

def challenge : SAction := fun e r => (r.sendhdr .ack e.value, .ok)

def abort : SAction := fun _ r => (r.sendhdr .fin 0, .ok)

def ignore : SAction := fun _ r => (r, .ok)

def command : SAction := fun _ r => (r.sendhdr .compl 1, .ok)

def message : SAction := fun _ r => (r, .ok)

def stderrdata : SAction := fun _ r => (r, .ok)

def initdone : SAction := fun _ r => ({ r with state := .done }, .xfrdone)

def sendfilename : SAction := fun _ r => ({ r with state := .filewait }.sendhdr .file r.fflags, .ok)

def endoftransfer : SAction := fun _ r => ({ r with state := .finish }.sendhdr .fin 0, .ok)

def fileskip : SAction := fun _ r => (r, .xfrdone)

def startfiledata : SAction := fun e r =>
  let r := { r with zrpos := e.value.toNat, offset := e.value.toNat, lastoffs := e.value.toNat }
  if e.seekok then sendpacket C e (r.sendhdr .data e.value) else (r, .eio)

def sendfiledata : SAction := fun e r => startfiledata C e { r with wait := false }

def filecrc : SAction := fun _ r => (r.sendhdr .crc (~~~ Crc.crc32part r.file 0xffffffff), .ok)

def acknowledge (r : Sender) : Sender :=
  if r.lastoffs < e.value.toNat then { r with lastoffs := e.value.toNat } else r

def sendwaitack : SAction := fun e r =>
  sendpacket C e ((acknowledge e r).sendhdr .data (UInt32.ofNat r.offset))

def sendnak : SAction := fun e r =>
  let r := { r with offset := r.zrpos }
  if e.seekok then sendpacket C e r else (r, .eio)

def sendrpos : SAction := fun e r => startfiledata C e { r with nerrors := r.nerrors + 1, wait := true }

def senddoneack : SAction := fun e r =>
  ({ acknowledge e r with state := .sendeof }.sendhdr .eof (UInt32.ofNat r.offset), .ok)

def resendeof : SAction := fun _ r => (r.sendhdr .eof (UInt32.ofNat r.offset), .ok)

def xfrdone : SAction := fun _ r => (r, .xfrdone)

def finish : SAction := fun _ r => (r, .xfrdone)

def timeout : SAction := fun _ r => (r, .etimedout)

def cmdto : SAction := fun _ r => (r, .etimedout)

def doneto : SAction := fun _ r => (r, .xfrdone)

def error : SAction := fun _ r => ({ r with wait := true }, .ok)

def sendfile (file : List UInt8) (fflags : UInt32) (r : Sender) : Sender × Ret :=
  let r := { r with eof := false, fflags := fflags, offset := 0, lastoffs := 0, file := file, sent := [] }
  ({ r with state := .filewait }.sendhdr .file fflags, .ok)

def evtable : SState → Table SState SAction
  | .start =>
    ⟨[(.rinit, .start, zrinit C), (.sinit, .start, ignore), (.challenge, .start, challenge), (.abort, .finish, abort),
        (.ferr, .finish, abort), (.nak, .start, ignore), (.command, .command, command), (.stderr, .message, message),
        (.timeout, .start, timeout)],
      (.start, error)⟩
  | .initack =>
    ⟨[(.sinit, .start, ignore), (.ack, .initack, initdone), (.nak, .initack, sendzsinit), (.rinit, .initack, zrinit C),
        (.challenge, .initack, challenge), (.abort, .finish, abort), (.ferr, .finish, abort),
        (.command, .command, command), (.stderr, .message, message), (.timeout, .initack, timeout)],
      (.initack, error)⟩
  | .filewait =>
    ⟨[(.sinit, .start, ignore), (.rpos, .sending, sendfiledata C), (.skip, .filewait, fileskip),
        (.crc, .filewait, filecrc), (.nak, .filewait, sendfilename), (.rinit, .filewait, sendfilename),
        (.abort, .finish, abort), (.ferr, .finish, abort), (.challenge, .filewait, challenge),
        (.command, .command, command), (.stderr, .message, message), (.timeout, .filewait, timeout)],
      (.filewait, error)⟩
  | .crcwait =>
    ⟨[(.sinit, .start, ignore), (.rpos, .sending, sendfiledata C), (.skip, .filewait, fileskip),
        (.nak, .crcwait, filecrc), (.rinit, .filewait, sendfilename), (.abort, .finish, abort), (.ferr, .finish, abort),
        (.crc, .crcwait, filecrc), (.challenge, .crcwait, challenge), (.command, .command, command),
        (.stderr, .message, message), (.timeout, .crcwait, timeout)],
      (.crcwait, error)⟩
  | .sending =>
    ⟨[(.sinit, .start, attention), (.ack, .sending, sendpacket C), (.rpos, .sending, sendrpos C),
        (.skip, .filewait, fileskip), (.nak, .sending, sendnak C), (.rinit, .filewait, sendfilename),
        (.abort, .finish, abort), (.ferr, .finish, abort), (.timeout, .sending, sendpacket C)],
      (.sending, error)⟩
  | .sendwait =>
    ⟨[(.sinit, .start, attention), (.ack, .sending, sendwaitack C), (.rpos, .sendwait, sendrpos C),
        (.skip, .filewait, fileskip), (.nak, .sending, sendnak C), (.rinit, .filewait, sendfilename),
        (.abort, .finish, abort), (.ferr, .finish, abort), (.timeout, .sendwait, timeout)],
      (.sendwait, error)⟩
  | .senddone =>
    ⟨[(.sinit, .start, ignore), (.ack, .sendwait, senddoneack), (.rpos, .sending, sendrpos C),
        (.skip, .filewait, fileskip), (.nak, .sending, sendnak C), (.rinit, .filewait, sendfilename),
        (.abort, .finish, abort), (.ferr, .finish, abort)],
      (.sendwait, error)⟩
  | .sendeof =>
    ⟨[(.rinit, .start, endoftransfer), (.sinit, .start, ignore), (.ack, .sendeof, ignore),
        (.rpos, .sendwait, sendrpos C), (.skip, .start, fileskip), (.nak, .sendeof, resendeof),
        (.rinit, .filewait, sendfilename), (.abort, .finish, abort), (.ferr, .finish, abort),
        (.timeout, .sendeof, timeout)],
      (.sendeof, error)⟩
  | .finish =>
    ⟨[(.sinit, .start, ignore), (.fin, .done, xfrdone), (.nak, .finish, finish), (.rinit, .finish, finish),
        (.abort, .finish, abort), (.ferr, .finish, abort), (.timeout, .finish, timeout)],
      (.finish, error)⟩
  | .command =>
    ⟨[(.sinit, .start, ignore), (.datarcvd, .command, ignore), (.timeout, .command, cmdto)], (.command, error)⟩
  | .message =>
    ⟨[(.sinit, .start, ignore), (.datarcvd, .message, stderrdata), (.timeout, .message, cmdto)], (.message, error)⟩
  | .done => ⟨[(.timeout, .done, doneto)], (.done, error)⟩

def event : Sender × Ret :=
  let entry := (evtable C r.state).find e.type
  entry.2 e { r with state := entry.1 }

/-- One event of `zm_datapump`, which ends as soon as an action does not return `OK`. -/
def step (s : Sender × Ret) (e : SInput) : Sender × Ret :=
  if s.2 = .ok then event C s.1 e else s

end Zms

/-- How near a state is to sending data: a file may be waiting (1), or its data are being sent (2). -/
def SState.rank : SState → Nat
  | .sending | .sendwait | .senddone => 2
  | .filewait | .crcwait | .sendeof => 1
  | _ => 0

def SState.active : SState → Bool
  | .sending | .sendwait | .senddone | .sendeof => true
  | _ => false

def SState.adrift : SState → Bool
  | .start | .command | .message => true
  | _ => false

namespace Zms

/-- What a quiet event of the type makes of a state, and what its action returns. -/
@[mk_iff]
structure Calm (state : SState) (type : EventType) (state' : SState) (ret : Ret) : Prop where
  rank : state'.rank ≤ state.rank
  active : state'.active → state' = state ∨ state = .senddone ∧ state' = .sendwait
  goesOn : (state.active → state'.active ∧ ret = .ok) ∨ type ∈ [.sinit, .rinit, .skip, .abort, .ferr, .timeout]
  adrift : (state.adrift → state'.adrift) ∨ type ∈ [.rinit, .abort, .ferr]

instance (state : SState) (type : EventType) (state' : SState) (ret : Ret) : Decidable (Calm state type state' ret) :=
  decidable_of_iff _ (calm_iff ..).symm

inductive Adds (sent : List Sent) : List Sent → Prop
  | nothing : Adds sent sent
  | header {type : EventType} {value : UInt32} (hne : type ≠ .data ∧ type ≠ .eof) :
      Adds sent (sent ++ [.header type value])

inductive Takes (C : SConfig) (r : Sender) (e : SInput) : Sender × Ret → Prop
  | quiet {state : SState} {wait : Bool} {sent : List Sent} {ret : Ret} (hcalm : Calm r.state e.type state ret)
      (hadds : Adds r.sent sent) : Takes C r e ({ r with state := state, wait := wait, sent := sent }, ret)
  | rinit {state : SState} (htype : e.type = .rinit) : Takes C r e (zrinit C e { r with state := state })
  | restart {state : SState} {wait : Bool} {nerrors : UInt16} (hrank : 1 ≤ r.state.rank) (htype : e.type = .rpos) :
      Takes C r e (startfiledata C e { r with state := state, wait := wait, nerrors := nerrors })
  | packet (hstate : r.state = .sending) (htype : e.type = .ack ∨ e.type = .timeout) :
      Takes C r e (sendpacket C e { r with state := .sending })
  | waitack (hstate : r.state = .sendwait) (htype : e.type = .ack) :
      Takes C r e (sendwaitack C e { r with state := .sending })
  | nak (hstate : r.state = .sending ∨ r.state = .sendwait ∨ r.state = .senddone) (htype : e.type = .nak) :
      Takes C r e (sendnak C e { r with state := .sending })
  | doneack (hstate : r.state = .senddone) (htype : e.type = .ack) :
      Takes C r e (senddoneack e { r with state := .sendwait })
  | resend (hstate : r.state = .sendeof) (htype : e.type = .nak) :
      Takes C r e ({ r with state := .sendeof }.sendhdr .eof (UInt32.ofNat r.offset), .ok)

variable {C : SConfig} {r : Sender} {e : SInput}

theorem Adds.prefix {sent sent' : List Sent} (h : Adds sent sent') : sent <+: sent' := by
  cases h with
  | nothing => exact List.prefix_rfl
  | header _ => exact List.prefix_append _ _

theorem event_takes (C : SConfig) (r : Sender) (e : SInput) : Takes C r e (event C r e) := by
  have hstay {type : EventType} {state : SState} {wait : Bool} {ret : Ret}
      (hcalm : Calm r.state type state ret := by decide) (htype : type = e.type) :
      Takes C r e ({ r with state := state, wait := wait }, ret) :=
    .quiet (htype ▸ hcalm) .nothing
  have hsend {type hdr : EventType} {state : SState} {value : UInt32}
      (h : Calm r.state type state .ok ∧ hdr ≠ .data ∧ hdr ≠ .eof := by decide) (htype : type = e.type) :
      Takes C r e ({ r with state := state }.sendhdr hdr value, .ok) :=
    .quiet (htype ▸ h.1) (.header h.2)
  have hrpos {state : SState} {wait : Bool} {nerrors : UInt16} (hrank : 1 ≤ r.state.rank := by decide)
      (htype : EventType.rpos = e.type) :
      Takes C r e (startfiledata C e { r with state := state, wait := wait, nerrors := nerrors }) :=
    .restart hrank htype.symm
  -- the last entry of a table is for every type
  have herror {state : SState} (h : Calm r.state .error state .ok) :
      Takes C r e ({ r with state := state, wait := true }, .ok) := by
    refine .quiet ⟨h.rank, h.active, .inl (h.goesOn.resolve_right (by decide)), ?_⟩ .nothing
    exact .inl (h.adrift.resolve_right (by decide))
  have hend : ∀ x ∈ ([] : List (EventType × SState × SAction)), x.1 = e.type →
      Takes C r e (x.2.2 e { r with state := x.2.1 }) := List.forall_mem_nil _
  rw [event]
  generalize hstate : r.state = state at hstay hsend hrpos herror
  refine Table.find_of (P := fun entry : SState × SAction => Takes C r e (entry.2 e { r with state := entry.1 })) ?_ ?_
  · cases state <;> simp only [evtable, List.forall_mem_cons]
    case start => exact ⟨fun h => .rinit h.symm, hstay, hsend, hsend, hsend, hstay, hsend, hstay, hstay, hend⟩
    case initack =>
      exact ⟨hstay, hstay, hsend, fun h => .rinit h.symm, hsend, hsend, hsend, hsend, hstay, hstay, hend⟩
    case filewait | crcwait =>
      exact ⟨hstay, hrpos, hstay, hsend, hsend, hsend, hsend, hsend, hsend, hsend, hstay, hstay, hend⟩
    case sending =>
      exact ⟨hstay, fun h => .packet hstate (.inl h.symm), hrpos, hstay, fun h => .nak (.inl hstate) h.symm, hsend,
        hsend, hsend, fun h => .packet hstate (.inr h.symm), hend⟩
    case sendwait =>
      exact ⟨hstay, fun h => .waitack hstate h.symm, hrpos, hstay, fun h => .nak (.inr (.inl hstate)) h.symm, hsend,
        hsend, hsend, hstay, hend⟩
    case senddone =>
      exact ⟨hstay, fun h => .doneack hstate h.symm, hrpos, hstay, fun h => .nak (.inr (.inr hstate)) h.symm, hsend,
        hsend, hsend, hend⟩
    case sendeof =>
      exact ⟨hsend, hstay, hstay, hrpos, hstay, fun h => .resend hstate h.symm, hsend, hsend, hsend, hstay, hend⟩
    case finish => exact ⟨hstay, hstay, hstay, hstay, hsend, hsend, hstay, hend⟩
    case command | message => exact ⟨hstay, hstay, hstay, hend⟩
    case done => exact ⟨hstay, hend⟩
  · cases state <;> dsimp only [evtable, error] <;> exact herror (by decide)

end Zms

end NuttxApps.Zmodem
