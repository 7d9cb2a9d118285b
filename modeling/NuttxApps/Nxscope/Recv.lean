import NuttxApps.Framework.Replay
import NuttxApps.Nxscope.Frame
import Mathlib.Algebra.GroupWithZero.Nat

/-!
# Commands of the host

`nxscope_recv_handle` takes the number of a channel from the frame, and does not check it as it should:
`safe_iff_existing` says for which frames only channels that exist are touched. `nxscope_recv` keeps only the bytes
behind a frame that was handled: a buffer with the first part of a frame is dropped. `frames_handled`: the frames of a
stream are handled if this never happens, however the stream is cut.
-/

namespace NuttxApps.Nxscope

open Bytes Replay List

/-- The settings in `struct nxscope_chinfo_s` -/
structure Channel where
  (enable div : UInt8)

/-- The array `chinfo` and the memory behind it, the elements that a request has read or written, and its result. -/
structure Handled where
  chinfo : Nat → Channel
  touched : List Nat
  ret : Int

/-- What the functions outside return: `nxscope_frame_send` and the callbacks. -/
structure HandleEnv where
  divider : Bool
  send : Int
  (start userid : UInt8 → Int)

variable (valid : UInt8 → Bool) (set : UInt8 → Channel → Channel)

def writeChannels (value : Nat → UInt8) (chinfo : Nat → Channel) (chans : List Nat) : Handled :=
  ⟨fun i => if i ∈ chans then set (value i) (chinfo i) else chinfo i, chans, 0⟩

/-- `nxscope_enable_req` and `nxscope_div_req`, with the check of a value and the field that it is written to. -/
def setReq (chmax : UInt8) (chinfo : Nat → Channel) (buf : Nat → UInt8) (dlen : Nat) : Handled :=
  let data i := buf (2 + i)
  let rejected : Handled := ⟨chinfo, [], -22⟩
  match (buf 0).toNat with
  | 0 =>
    if dlen ≠ 3 + 1 - 1 ∨ ¬valid (data 0) ∨ buf 1 > chmax then rejected
    else writeChannels set (fun _ => data 0) chinfo [(buf 1).toNat]
  | 1 =>
    if dlen ≠ 3 + 1 * chmax.toNat - 1 ∨ ∃ i < chmax.toNat, ¬valid (data i) then rejected
    else writeChannels set data chinfo (List.range chmax.toNat)
  | 2 =>
    if dlen ≠ 3 + 1 - 1 ∨ ¬valid (data 0) then rejected
    else writeChannels set (fun _ => data 0) chinfo (List.range chmax.toNat)
  | _ => rejected

def enableValid (en : UInt8) : Bool := en = 0 ∨ en = 1

def enableReq := setReq enableValid fun en c => { c with enable := en }

def divReq := setReq (fun _ => true) fun div c => { c with div := div }

/-- `nxscope_recv_handle`; a request with a wrong length returns `OK`. -/
def recvHandle (E : HandleEnv) (chmax : UInt8) (chinfo : Nat → Channel) (id : UInt8) (buf : Nat → UInt8) (dlen : Nat) :
    Handled :=
  match id.toNat with
  | 2 => ⟨chinfo, [], if dlen ≠ 0 then 0 else E.send⟩
  | 3 => if dlen ≠ 1 then ⟨chinfo, [], 0⟩ else ⟨chinfo, [(buf 0).toNat], E.send⟩
  | 5 => ⟨chinfo, [], if dlen ≠ 1 then 0 else if buf 0 = 0 ∨ buf 0 = 1 then E.start (buf 0) else -22⟩
  | 6 => enableReq chmax chinfo buf dlen
  | 7 => if E.divider then divReq chmax chinfo buf dlen else ⟨chinfo, [], -1⟩
  | _ => ⟨chinfo, [], E.userid id⟩

/-- Only channels that exist were touched, and none was changed if the request was rejected. -/
def Handled.Safe (r : Handled) (chmax : UInt8) (chinfo : Nat → Channel) : Prop :=
  (∀ i ∈ r.touched, i < chmax.toNat) ∧ (r.ret < 0 → r.chinfo = chinfo)

/-- A valid request for one channel is not for the one behind the last. -/
def SingleExists (chmax : UInt8) (buf : Nat → UInt8) (dlen : Nat) : Prop :=
  buf 0 = 0 → dlen = 3 → valid (buf 2) → buf 1 ≠ chmax

theorem setReq_safe_iff {valid : UInt8 → Bool} {set : UInt8 → Channel → Channel} {chmax : UInt8}
    {chinfo : Nat → Channel} {buf : Nat → UInt8} {dlen : Nat} :
    (setReq valid set chmax chinfo buf dlen).Safe chmax chinfo ↔ SingleExists valid chmax buf dlen := by
  have hrejected : Handled.Safe ⟨chinfo, [], -22⟩ chmax chinfo := ⟨forall_mem_nil _, fun _ => rfl⟩
  have hall : ∀ value, (writeChannels set value chinfo (List.range chmax.toNat)).Safe chmax chinfo := fun value =>
    ⟨fun i hi => mem_range.mp hi, fun h => absurd h (Int.lt_irrefl 0)⟩
  rw [setReq, SingleExists]
  split
  case h_1 hreq =>
    have hreq : buf 0 = 0 := UInt8.toNat_inj.mp hreq
    split_ifs with hbad
    · refine iff_of_true hrejected fun _ hlen hvalid heq => ?_
      obtain h | h | h := hbad
      · exact h hlen
      · exact h hvalid
      · exact UInt8.lt_irrefl _ (heq ▸ h)
    · simp only [not_or, not_not, UInt8.not_lt] at hbad
      have hle : (buf 1).toNat ≤ chmax.toNat := UInt8.le_iff_toNat_le.mp hbad.2.2
      have hne : buf 1 ≠ chmax ↔ (buf 1).toNat < chmax.toNat := by
        rw [ne_eq, ← UInt8.toNat_inj]
        omega
      simp [Handled.Safe, writeChannels, hreq, hbad.1, hbad.2.1, hne]
  case h_2 hreq | h_3 hreq =>
    refine iff_of_true ?_ fun h => by simp [h] at hreq
    split_ifs
    · exact hrejected
    · exact hall _
  case h_4 hreq _ _ => exact iff_of_true hrejected fun h => absurd (congrArg UInt8.toNat h) hreq

/-- For which frames the channels that a request touches exist. -/
theorem safe_iff_existing (E : HandleEnv) (chmax : UInt8) (chinfo : Nat → Channel) (id : UInt8) (buf : Nat → UInt8)
    (dlen : Nat) :
    (recvHandle E chmax chinfo id buf dlen).Safe chmax chinfo ↔
      (id = 3 → dlen = 1 → buf 0 < chmax) ∧ (id = 6 → SingleExists enableValid chmax buf dlen) ∧
        (id = 7 → E.divider → SingleExists (fun _ => true) chmax buf dlen) := by
  have hquiet : ∀ ret, Handled.Safe ⟨chinfo, [], ret⟩ chmax chinfo := fun ret => ⟨forall_mem_nil _, fun _ => rfl⟩
  have hid : ∀ k : UInt8, id = k ↔ id.toNat = k.toNat := fun k => UInt8.toNat_inj.symm
  rw [recvHandle, hid 3, hid 6, hid 7]
  split
  case h_1 h => simpa [h] using hquiet _
  case h_2 h =>
    split_ifs with hlen
    · simpa [h, hlen] using hquiet 0
    · simp [h, Handled.Safe, not_not.mp hlen, UInt8.lt_iff_toNat_lt]
  case h_3 h => simpa [h] using hquiet _
  case h_4 h => simp [h, enableReq, setReq_safe_iff]
  case h_5 h =>
    split_ifs with hdivider
    · simp [h, hdivider, divReq, setReq_safe_iff]
    · simpa [h, hdivider] using hquiet (-1)
  case h_6 _ h3 _ h6 h7 =>
    exact iff_of_true (hquiet _) ⟨fun h => absurd h h3, fun h => absurd h h6, fun h => absurd h h7⟩

/-- With one channel, number 1 is enabled, and its description is sent. -/
theorem missing_channel_touched :
    let handle := recvHandle ⟨true, 0, fun _ => 0, fun _ => 0⟩ 1 fun _ => ⟨0, 0⟩
    let enabled := handle 6 ([0, 1, 1].getD · 0) 3
    (enabled.touched = [1] ∧ enabled.ret = 0 ∧ (enabled.chinfo 1).enable = 1) ∧
      (handle 3 ([1].getD · 0) 1).touched = [1] :=
  ⟨⟨rfl, rfl, rfl⟩, rfl⟩

/-- The size of `rxbuf`, and for which frames `nxscope_recv_handle` succeeds. -/
structure RecvEnv where
  W : Env
  rxbufLen : Nat
  size : rxbufLen < 2 ^ W.bits
  handles : UInt8 × List UInt8 → Bool

/-- The bytes in `rxbuf`, followed by those that the interface still has, and the frames that were handled. -/
structure Receiver where
  bytes : List UInt8
  handled : List (UInt8 × List UInt8)

/-- The bytes that arrive in front of a call, and the memory behind those in `rxbuf`. -/
structure RecvCall where
  piece : List UInt8
  stale : Nat → UInt8

variable (E : RecvEnv) (frames : List (UInt8 × List UInt8)) (s : Receiver)

/-- `rxbuf` behind the loop over `INTF_RECV`, which ends when it is full or the interface is empty. -/
def rxbuf (c : RecvCall) : List UInt8 := (s.bytes ++ c.piece).take E.rxbufLen

/-- `nxscope_recv`; `dlen` is cut to 16 bits for `nxscope_recv_handle`. -/
def nxscopeRecv (c : RecvCall) : Receiver :=
  let buff := rxbuf E s c
  let waiting := (s.bytes ++ c.piece).drop E.rxbufLen
  let mem k := buff.getD k (c.stale k)
  if buff = [] then { s with bytes := waiting }
  else
    match (frameGet E.W mem buff.length).frame with
    | none => { s with bytes := waiting }
    | some f =>
      let frame := (f.id, bytesAt mem f.data (f.dlen % 2 ^ 16))
      ⟨if E.handles frame then buff.drop f.drop ++ waiting else waiting, s.handled ++ [frame]⟩

def Receiver.init : Receiver := ⟨[], []⟩

/-- The call finds nothing in the buffer, or a header and as many bytes as it says. -/
def Whole (c : RecvCall) : Prop :=
  rxbuf E s c = [] ∨ 4 ≤ (rxbuf E s c).length ∧ hdrLen ((rxbuf E s c).getD · 0) 0 ≤ (rxbuf E s c).length

def encodeFrames : List UInt8 := frames.flatMap fun f => encodeFrame E.W f.1 f.2

/-- Frames that fit the buffer, and that are handled with success. -/
def RecvEnv.Accepts : Prop :=
  ∀ f ∈ frames, f.2.length + 6 < 2 ^ 16 ∧ f.2.length + 6 ≤ E.rxbufLen ∧ E.handles f

section

variable {E : RecvEnv} {s : Receiver} {c : RecvCall} {frames : List (UInt8 × List UInt8)} {future : List UInt8}

/-- A buffer that is whole starts with the next frame of the stream. -/
theorem exists_eq_append {W : Env} {id : UInt8} {data buff rest all : List UInt8}
    (heq : buff ++ rest = encodeFrame W id data ++ all) (hlen : data.length + 6 < 2 ^ 16) (hfour : 4 ≤ buff.length)
    (hwhole : hdrLen (buff.getD · 0) 0 ≤ buff.length) :
    ∃ tail, buff = encodeFrame W id data ++ tail ∧ tail ++ rest = all := by
  have hget : ∀ k < 4, buff.getD k 0 = (encodeFrame W id data ++ all).getD k 0 := fun k hk => by
    rw [← heq, getD_eq_getElem?_getD, getD_eq_getElem?_getD, getElem?_append_left (by omega)]
  have hhdr := (holds_append W [] id data all fun _ => 0).header.2.1
  rw [Nat.mod_eq_of_lt hlen] at hhdr
  rw [hdrLen, hget 1 (by decide), hget 2 (by decide)] at hwhole
  have hle : (encodeFrame W id data).length ≤ buff.length := by
    rw [length_encodeFrame, ← hhdr]
    exact hwhole
  obtain ⟨tail, rfl⟩ := prefix_of_prefix_length_le ⟨all, heq.symm⟩ (prefix_append buff rest) hle
  rw [append_assoc] at heq
  exact ⟨tail, rfl, append_cancel_left heq⟩

/-- A call that is whole handles the next frame, unless all that is left of the stream is still to come. -/
theorem recv_whole (hframes : E.Accepts frames) (h : s.bytes ++ (c.piece ++ future) = encodeFrames E frames)
    (hwhole : Whole E s c) :
    encodeFrames E frames = future ∧ nxscopeRecv E s c = ⟨[], s.handled⟩ ∨
      ∃ f fs bytes, frames = f :: fs ∧ bytes ++ future = encodeFrames E fs ∧
        nxscopeRecv E s c = ⟨bytes, s.handled ++ [f]⟩ := by
  have hstream : rxbuf E s c ++ ((s.bytes ++ c.piece).drop E.rxbufLen ++ future) = encodeFrames E frames := by
    rw [rxbuf, ← append_assoc, take_append_drop, append_assoc, h]
  have hroom : (rxbuf E s c).length ≤ E.rxbufLen := length_take_le ..
  rw [nxscopeRecv]
  rcases hwhole with hempty | ⟨hfour, hle⟩
  · left
    have hnone : s.bytes ++ c.piece = [] := by
      obtain _ | ⟨f, fs⟩ := frames
      · rw [← append_assoc] at h
        exact (append_eq_nil_iff.mp h).1
      · have hfits := (hframes f mem_cons_self).2.1
        exact (take_eq_nil_iff.mp hempty).resolve_left (by omega)
    rw [← append_assoc, hnone] at h
    exact ⟨h.symm, by rw [if_pos hempty, hnone, drop_nil]⟩
  · right
    generalize rxbuf E s c = buff at *
    generalize (s.bytes ++ c.piece).drop E.rxbufLen = waiting at *
    have hne : buff ≠ [] := ne_nil_of_length_pos (by omega)
    obtain _ | ⟨f, fs⟩ := frames
    · exact absurd (append_eq_nil_iff.mp hstream).1 hne
    obtain ⟨hlen, -, hok⟩ := hframes f mem_cons_self
    obtain ⟨tail, rfl, htail⟩ := exists_eq_append hstream hlen hfour hle
    obtain ⟨hget, hdata⟩ := frameGet_append c.stale hlen (Nat.lt_of_le_of_lt hroom E.size)
    refine ⟨f, fs, tail ++ waiting, rfl, by rw [append_assoc, htail]; rfl, ?_⟩
    rw [if_neg hne, hget]
    dsimp only
    rw [Nat.mod_eq_of_lt (by omega), hdata, if_pos hok, drop_left' (length_encodeFrame ..)]

theorem replay_whole {calls : List RecvCall} (hframes : E.Accepts frames)
    (h : s.bytes ++ (calls.flatMap RecvCall.piece ++ future) = encodeFrames E frames)
    (hwhole : Guarded (nxscopeRecv E) (Whole E) s calls) :
    ∃ fs bytes, bytes ++ future = encodeFrames E fs ∧
      (∃ handled, replay (nxscopeRecv E) s calls = ⟨bytes, handled⟩ ∧ handled ++ fs = s.handled ++ frames) ∧
      (calls.flatMap RecvCall.piece ++ future = [] → fs.length ≤ frames.length - calls.length) := by
  induction calls generalizing s frames with
  | nil => exact ⟨frames, _, h, ⟨_, rfl, rfl⟩, fun _ => .refl⟩
  | cons c calls ih =>
    rw [flatMap_cons, append_assoc] at h ⊢
    obtain ⟨hguard, hwhole⟩ := hwhole
    rw [replay_cons]
    obtain ⟨hfuture, heq⟩ | ⟨f, fs, bytes, rfl, hbytes, heq⟩ := recv_whole hframes h hguard <;> rw [heq] at hwhole ⊢
    · obtain ⟨fs, bytes, hfs, hhandled, hcount⟩ := ih hframes hfuture.symm hwhole
      refine ⟨fs, bytes, hfs, hhandled, fun hnil => ?_⟩
      have hrest := (append_eq_nil_iff.mp hnil).2
      have hnone : frames = [] := by
        rw [hrest] at hfuture
        cases frames with
        | nil => rfl
        | cons f frames => simpa [encodeFrames] using congrArg List.length hfuture
      have hle := hcount hrest
      rw [hnone] at hle ⊢
      simp at hle ⊢
      exact hle
    · obtain ⟨fs', bytes', hfs, ⟨handled, hreplay, hhandled⟩, hcount⟩ :=
        ih (fun f hf => hframes f (mem_cons_of_mem _ hf)) hbytes hwhole
      refine ⟨fs', bytes', hfs, ⟨handled, hreplay, by rw [hhandled, append_assoc]; rfl⟩, fun hnil => ?_⟩
      have := hcount (append_eq_nil_iff.mp hnil).2
      simp only [length_cons]
      omega

end

/-- The frames of a stream are handled once and in order, however it is cut, if every call is whole. -/
theorem frames_handled {E : RecvEnv} {frames : List (UInt8 × List UInt8)} (hframes : E.Accepts frames)
    {calls idle : List RecvCall} (hstream : calls.flatMap RecvCall.piece = encodeFrames E frames)
    (hidle : idle.flatMap RecvCall.piece = []) (hcount : frames.length ≤ idle.length)
    (hwhole : Guarded (nxscopeRecv E) (Whole E) .init (calls ++ idle)) :
    (replay (nxscopeRecv E) .init (calls ++ idle)).handled = frames := by
  obtain ⟨hcalls, hidles⟩ := guarded_append.mp hwhole
  rw [replay_append]
  have hstart : Receiver.init.bytes ++ (calls.flatMap RecvCall.piece ++ []) = encodeFrames E frames := by
    rw [append_nil, hstream]
    rfl
  obtain ⟨fs, bytes, hfs, ⟨handled, hreplay, rfl⟩, -⟩ := replay_whole hframes hstart hcalls
  rw [hreplay] at hidles ⊢
  have hrest : bytes ++ (idle.flatMap RecvCall.piece ++ []) = encodeFrames E fs := by rw [hidle, ← hfs]; rfl
  obtain ⟨fs', _, -, ⟨handled', hreplay', hhandled⟩, hle⟩ :=
    replay_whole (fun f hf => hframes f (mem_append_right _ hf)) hrest hidles
  have hnil : fs' = [] := eq_nil_of_length_eq_zero (by
    have := hle (by rw [hidle]; rfl)
    rw [length_append] at hcount
    omega)
  rw [hreplay', ← hhandled, hnil, append_nil]

/-- A buffer of 64 bytes, and a handler that accepts all. -/
def smallRecv : RecvEnv := ⟨.bits32, 64, by decide, fun _ => true⟩

def arrives (piece : List UInt8) : RecvCall := ⟨piece, fun _ => 0⟩

theorem frames_handled_two :
    (replay (nxscopeRecv smallRecv) .init
      ([arrives (encodeFrame .bits32 5 [1] ++ encodeFrame .bits32 2 [])] ++ [arrives [], arrives []])).handled =
        [(5, [1]), (2, [])] :=
  frames_handled (E := smallRecv) (by unfold RecvEnv.Accepts; decide) (by decide +kernel) rfl (by decide)
    (by unfold Whole; decide +kernel)

/-- A request to enable channel 0 that arrives in two pieces is lost. -/
theorem cut_frame_lost :
    let frame := encodeFrame .bits32 6 [0, 0, 1]
    (replay (nxscopeRecv smallRecv) .init [arrives (frame.take 4), arrives (frame.drop 4), arrives []]).handled =
      [] := by
  decide +kernel

end NuttxApps.Nxscope
