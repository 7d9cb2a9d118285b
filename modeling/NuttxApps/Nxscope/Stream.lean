import NuttxApps.Framework.Replay
import NuttxApps.Nxscope.Frame

/-!
# The NxScope stream buffer

`nxscope_put_common_m` appends a sample to the stream buffer, and `nxscope_stream` completes the buffer to a frame and
sends it, again at the next call if that fails. Calls that meet `Careful` send every sample that was accepted once
(`delivers_once`).
-/

namespace NuttxApps.Nxscope

open Bytes Crc Replay
open List hiding min

/-- `enum nxscope_sample_dtype_e`. The user types start from `NXSCOPE_TYPE_USER`, which is `user 0`. -/
inductive SampleType
  | undef
  | none
  | uint8
  | int8
  | uint16
  | int16
  | uint32
  | int32
  | uint64
  | int64
  | float
  | double
  | ub8
  | b8
  | ub16
  | b16
  | ub32
  | b32
  | char
  | user (k : Fin 12)
deriving DecidableEq

def typeSize : SampleType → Nat
  | .undef | .none => 0
  | .uint8 | .int8 | .char | .user _ => 1
  | .uint16 | .int16 | .ub8 | .b8 => 2
  | .uint32 | .int32 | .float | .ub16 | .b16 => 4
  | .uint64 | .int64 | .double | .ub32 | .b32 => 8

/-- The arguments of `nxscope_put_common_m`; a string has room for its terminator. -/
structure Put where
  type : SampleType
  ch : UInt8
  val : Nat → UInt8
  d : UInt8
  md : Nat → UInt8
  mlen : UInt8
  dim_pos : type = .char → 0 < d.toNat

/-- The configuration. The buffer has room for the header and the flags. -/
structure Config where
  W : Env
  streambufLen : Nat
  room : 5 ≤ streambufLen
  chmax : Nat
  (debugFeatures divider haveLongLong : Bool)

structure ChInfo where
  enable : Bool
  dtype : SampleType
  (vdim mlen div : UInt8)

structure Scope where
  chinfo : UInt8 → ChInfo
  cntr : UInt8 → Nat
  (start streamRetry : Bool)
  streambuf : List UInt8
  streamI : Nat

variable (C : Config) (s : Scope) (p : Put)

/-- The vector of a sample: a string is filled with zeros. -/
def Put.vector : List UInt8 :=
  if p.type = .char then
    let str := (bytesAt p.val 0 (p.d.toNat - 1)).takeWhile (· ≠ 0)
    str ++ List.replicate (p.d.toNat - str.length) 0
  else bytesAt p.val 0 (typeSize p.type * p.d.toNat)

def Put.sample : List UInt8 := p.ch :: p.vector ++ bytesAt p.md 0 p.mlen.toNat

def hasCase : SampleType → Bool
  | .undef => false
  | .uint64 | .int64 | .double | .ub32 | .b32 => C.haveLongLong
  | .user k => k = 0
  | _ => true

def putVector : List UInt8 := if hasCase C p.type then p.vector else []

def putSample : List UInt8 := p.ch :: putVector C p ++ bytesAt p.md 0 p.mlen.toNat

theorem length_vector : p.vector.length = typeSize p.type * p.d.toNat := by
  rw [Put.vector]
  split_ifs with hchar
  · have hle : ((bytesAt p.val 0 (p.d.toNat - 1)).takeWhile (· ≠ 0)).length ≤ p.d.toNat - 1 := by
      have := (takeWhile_sublist (· ≠ 0) (l := bytesAt p.val 0 (p.d.toNat - 1))).length_le
      rwa [length_bytesAt] at this
    rw [length_append, length_replicate, hchar]
    simp only [typeSize]
    omega
  · exact length_bytesAt _ _ _

theorem length_putSample_le : (putSample C p).length ≤ 1 + typeSize p.type * p.d.toNat + p.mlen.toNat := by
  have hvector : (putVector C p).length ≤ typeSize p.type * p.d.toNat := by
    rw [putVector]
    split_ifs
    · exact Nat.le_of_eq (length_vector p)
    · exact Nat.zero_le _
  rw [putSample, cons_append, length_cons, length_append, length_bytesAt]
  omega

theorem putSample_eq {C : Config} {p : Put} (h : hasCase C p.type ∨ typeSize p.type * p.d.toNat = 0) :
    putSample C p = p.sample := by
  have hvector : putVector C p = p.vector := by
    rw [putVector]
    split_ifs with hcase
    · rfl
    · have hlen := length_vector p
      rw [h.resolve_left hcase] at hlen
      exact (length_eq_zero_iff.mp hlen).symm
  rw [putSample, hvector, Put.sample]

inductive Error
  | eagain
  | einval
  | enobufs
deriving DecidableEq

def chChecks : Scope × Option Error :=
  let info := s.chinfo p.ch
  if !s.start then (s, some .eagain)
  else if !info.enable then (s, some .eagain)
  else if C.debugFeatures ∧
      (C.chmax < p.ch.toNat ∨ info.dtype ≠ p.type ∨ info.vdim ≠ p.d ∨ info.mlen ≠ p.mlen) then
    (s, some .einval)
  else if C.divider then
    let cntr := (s.cntr p.ch + 1) % 2 ^ 32
    let s := { s with cntr := fun ch => if ch = p.ch then cntr else s.cntr ch }
    if cntr % (info.div.toNat + 1) ≠ 0 then (s, some .eagain) else (s, none)
  else (s, none)

def Fits : Prop :=
  s.streamI + 1 + typeSize p.type * p.d.toNat + p.mlen.toNat + 2 ≤ C.streambufLen

instance (C : Config) (s : Scope) (p : Put) : Decidable (Fits C s p) := inferInstanceAs (Decidable (_ ≤ _))

def Scope.flags : UInt8 := s.streambuf.getD 4 0

def streamOverflow : Scope := { s with streambuf := s.streambuf.set 4 (s.flags ||| 1) }

/-- `nxscope_put_common_m` of a channel that is not critical. -/
def putCommon : Scope × Option Error :=
  match chChecks C s p with
  | (s, some e) => (s, some e)
  | (s, none) =>
    if Fits C s p then
      let bytes := putSample C p
      ({ s with streambuf := splice s.streambuf s.streamI bytes, streamI := s.streamI + bytes.length }, none)
    else (streamOverflow s, some .enobufs)

def streamReset : Scope := { s with streamI := 5, streambuf := s.streambuf.set 4 0 }

/-- The frame is finalized by `nxscope_stream_send`, unless it is sent again. -/
def streamFinal : Option Scope :=
  if s.streamRetry then some s
  else (frameFinal C.W 1 s.streambuf s.streamI).map fun r => { s with streambuf := r.1, streamI := r.2 }

/-- `nxscope_stream`, where `INTF_SEND` sends the whole buffer or fails. -/
def nxscopeStream (ok : Bool) : Scope × Option (List UInt8) :=
  if !s.start then (s, none)
  else if s.streamI ≤ 5 then (s, none)
  else
    match streamFinal C s with
    | none => (s, none)
    | some s =>
      if ok then (streamReset { s with streamRetry := false }, some (s.streambuf.take s.streamI))
      else ({ s with streamRetry := true }, none)

inductive Call
  | put (p : Put)
  | stream (ok : Bool)

/-- The scope, the buffers that were sent and the samples that were accepted. -/
structure Line where
  scope : Scope
  (sent accepted : List (List UInt8))

def step (w : Line) : Call → Line
  | .put p =>
    let r := putCommon C w.scope p
    { w with scope := r.1, accepted := w.accepted ++ if r.2 = none then [p.sample] else [] }
  | .stream ok =>
    let r := nxscopeStream C w.scope ok
    { w with scope := r.1, sent := w.sent ++ r.2.toList }

def Line.init (start : Bool) (chinfo : UInt8 → ChInfo) : Line :=
  ⟨⟨chinfo, fun _ => 0, start, false, List.replicate C.streambufLen 0, 5⟩, [], []⟩

def memOf (b : List UInt8) (k : Nat) : UInt8 := b.getD k 0

def payload (W : Env) (b : List UInt8) : List UInt8 :=
  match (frameGet W (memOf b) b.length).frame with
  | some f => (bytesAt (memOf b) f.data f.dlen).drop 1
  | none => []

/-- The samples in the stream buffer; a frame that is sent again ends with its CRC. -/
def pending : List UInt8 :=
  (s.streambuf.take (if s.streamRetry then s.streamI - 2 else s.streamI)).drop 5

/-- Every buffer that was sent is a frame, and every sample that was accepted was sent or is in the buffer. -/
structure Delivers (W : Env) (w : Line) : Prop where
  frames : ∀ b ∈ w.sent, ∃ f, (frameGet W (memOf b) b.length).frame = some f ∧ f.drop = b.length
  samples : w.sent.flatMap (payload W) ++ pending w.scope = w.accepted.flatten

/-- A sample that passes the checks has a type that is known, and does not meet a frame that is to be sent again, unless
it finds no room and the frame has the overflow flag. A frame that is finalized has a length of 16 bits. -/
def Careful (w : Line) : Call → Prop
  | .put p =>
    (chChecks C w.scope p).2 = none →
      (Fits C w.scope p → hasCase C p.type ∨ typeSize p.type * p.d.toNat = 0) ∧
        (w.scope.streamRetry → ¬ Fits C w.scope p ∧ w.scope.flags ||| 1 = w.scope.flags)
  | .stream _ => w.scope.start → 5 < w.scope.streamI → w.scope.streamRetry = false → w.scope.streamI + 2 < 2 ^ 16

instance (C : Config) (w : Line) : (c : Call) → Decidable (Careful C w c)
  | .put _ => inferInstanceAs (Decidable (_ → _ ∧ _))
  | .stream _ => inferInstanceAs (Decidable (_ → _ → _ → _))

section

variable {C : Config} {w : Line} {s : Scope} {data : List UInt8}

theorem frameGet_encodeFrame (hlen : data.length + 6 < 2 ^ 16) :
    (frameGet C.W (memOf (encodeFrame C.W 1 data)) (encodeFrame C.W 1 data).length).frame =
        some ⟨1, 4, data.length + 6, data.length⟩ ∧
      bytesAt (memOf (encodeFrame C.W 1 data)) 4 data.length = data := by
  have hwide := C.W.lt
  have hsize : (encodeFrame C.W 1 data ++ []).length < 2 ^ C.W.bits := by
    rw [append_nil, length_encodeFrame]
    omega
  have hframe := frameGet_append (fun _ => 0) hlen hsize
  rw [append_nil] at hframe
  exact hframe

theorem payload_encodeFrame (hlen : data.length + 6 < 2 ^ 16) : payload C.W (encodeFrame C.W 1 data) = data.drop 1 := by
  obtain ⟨hget, hdata⟩ := frameGet_encodeFrame (C := C) hlen
  rw [payload, hget]
  dsimp only
  rw [hdata]

theorem Delivers.send {sent accepted : List (List UInt8)} (hlen : data.length + 6 < 2 ^ 16)
    (h : Delivers C.W ⟨s, sent, accepted⟩) (hpending : pending s = data.drop 1) {s' : Scope} (hs' : pending s' = []) :
    Delivers C.W ⟨s', sent ++ [encodeFrame C.W 1 data], accepted⟩ := by
  refine ⟨fun b hb => ?_, ?_⟩
  · rcases mem_append.mp hb with hb | hb
    · exact h.frames b hb
    · rw [mem_singleton.mp hb]
      exact ⟨_, (frameGet_encodeFrame hlen).1, (length_encodeFrame C.W 1 data).symm⟩
  · have hsamples := h.samples
    rw [hpending] at hsamples
    rw [flatMap_append, flatMap_singleton, payload_encodeFrame hlen, hs', append_nil, hsamples]

structure Inv (C : Config) (w : Line) : Prop where
  delivers : Delivers C.W w
  length : w.scope.streambuf.length = C.streambufLen
  fresh : w.scope.streamRetry = false →
    5 ≤ w.scope.streamI ∧ (5 < w.scope.streamI → w.scope.streamI + 2 ≤ C.streambufLen)
  again : w.scope.streamRetry = true → ∃ data, w.scope.streambuf.take w.scope.streamI = encodeFrame C.W 1 data ∧
    w.scope.streamI = data.length + 6 ∧ data.length + 6 < 2 ^ 16

theorem Inv.init (C : Config) (start : Bool) (chinfo : UInt8 → ChInfo) :
    Inv C (.init C start chinfo) where
  delivers := by
    have hpending : pending (Line.init C start chinfo).scope = [] := drop_of_length_le (length_take_le _ _)
    refine ⟨fun b hb => absurd hb not_mem_nil, ?_⟩
    rw [hpending]
    rfl
  length := length_replicate
  fresh := fun _ => ⟨Nat.le_refl 5, fun h => absurd h (Nat.lt_irrefl 5)⟩
  again := fun h => nomatch h

theorem chChecks_eq (C : Config) (s : Scope) (p : Put) : ∃ cntr, (chChecks C s p).1 = { s with cntr := cntr } := by
  simp only [chChecks]
  split_ifs <;> exact ⟨_, rfl⟩

theorem pending_append (hretry : s.streamRetry = false) (hlo : 5 ≤ s.streamI) {bytes : List UInt8}
    (hhi : s.streamI + bytes.length ≤ s.streambuf.length) :
    pending { s with streambuf := splice s.streambuf s.streamI bytes, streamI := s.streamI + bytes.length } =
      pending s ++ bytes := by
  have htake : (splice s.streambuf s.streamI bytes).take (s.streamI + bytes.length) =
      s.streambuf.take s.streamI ++ bytes := by
    rw [splice_eq_append _ hhi, take_left']
    rw [length_append, length_take]
    omega
  have hlength : (s.streambuf.take s.streamI).length = s.streamI := by
    rw [length_take]
    omega
  simp only [pending, hretry, Bool.false_eq_true, if_false]
  rw [htake, drop_append_of_le_length (by omega)]

theorem pending_set (s : Scope) (flags : UInt8) :
    pending { s with streambuf := s.streambuf.set 4 flags } = pending s := by
  simp only [pending]
  rw [take_set, drop_set, if_pos (by decide)]

theorem Inv.overflow (h : Inv C w) (hflags : w.scope.streamRetry → w.scope.flags ||| 1 = w.scope.flags) :
    Inv C { w with scope := streamOverflow w.scope } := by
  have hdelivers : Delivers C.W { w with scope := streamOverflow w.scope } := by
    refine ⟨h.delivers.frames, ?_⟩
    have hpending : pending (streamOverflow w.scope) = pending w.scope := pending_set _ _
    rw [hpending]
    exact h.delivers.samples
  refine ⟨hdelivers, length_set.trans h.length, h.fresh, fun hretry => ?_⟩
  have hsame : w.scope.streambuf.set 4 (w.scope.flags ||| 1) = w.scope.streambuf := by
    have hroom : 4 < w.scope.streambuf.length := by
      rw [h.length]
      exact C.room
    rw [hflags hretry, Scope.flags, getD_eq_getElem?_getD, getElem?_eq_getElem hroom, Option.getD_some,
      set_getElem_self]
  obtain ⟨data, htake, hlen⟩ := h.again hretry
  refine ⟨data, ?_, hlen⟩
  simp only [streamOverflow, hsame]
  exact htake

theorem Inv.append (h : Inv C w) {p : Put} (hretry : w.scope.streamRetry = false) (hfits : Fits C w.scope p)
    (hcase : hasCase C p.type ∨ typeSize p.type * p.d.toNat = 0) :
    Inv C { w with
      scope := { w.scope with
        streambuf := splice w.scope.streambuf w.scope.streamI (putSample C p)
        streamI := w.scope.streamI + (putSample C p).length }
      accepted := w.accepted ++ [p.sample] } := by
  have hle := length_putSample_le C p
  have hlo := (h.fresh hretry).1
  have hroom : w.scope.streamI + (putSample C p).length + 2 ≤ C.streambufLen := by
    rw [Fits] at hfits
    omega
  refine ⟨⟨h.delivers.frames, ?_⟩, (length_splice _ _ _).trans h.length,
    fun _ => ⟨Nat.le_add_right_of_le hlo, fun _ => hroom⟩,
    fun hr => absurd (hretry.symm.trans hr) Bool.false_ne_true⟩
  rw [pending_append hretry hlo (by rw [h.length]; omega), ← append_assoc, h.delivers.samples, putSample_eq hcase,
    flatten_append, flatten_singleton]

theorem putCommon_cases (C : Config) (s : Scope) (p : Put) :
    ∃ cntr, (∃ e, putCommon C s p = ({ s with cntr := cntr }, some e)) ∨
      (chChecks C s p).2 = none ∧ ¬ Fits C s p ∧
        putCommon C s p = (streamOverflow { s with cntr := cntr }, some .enobufs) ∨
      (chChecks C s p).2 = none ∧ Fits C s p ∧
        putCommon C s p = ({ s with
          cntr := cntr
          streambuf := splice s.streambuf s.streamI (putSample C p)
          streamI := s.streamI + (putSample C p).length }, none) := by
  obtain ⟨cntr, hcntr⟩ := chChecks_eq C s p
  refine ⟨cntr, ?_⟩
  rcases hchecks : chChecks C s p with ⟨s', r⟩
  rw [hchecks] at hcntr
  dsimp only at hcntr
  simp only [putCommon, hchecks, hcntr]
  rcases r with _ | e
  · by_cases hfits : Fits C s p
    · exact .inr (.inr ⟨rfl, hfits, if_pos hfits⟩)
    · exact .inr (.inl ⟨rfl, hfits, if_neg hfits⟩)
  · exact .inl ⟨e, rfl⟩

theorem put_inv (h : Inv C w) {p : Put} (hcareful : Careful C w (.put p)) : Inv C (step C w (.put p)) := by
  obtain ⟨cntr, hcases⟩ := putCommon_cases C w.scope p
  have hkeep : Inv C { w with scope := { w.scope with cntr := cntr } } :=
    ⟨⟨h.delivers.frames, h.delivers.samples⟩, h.length, h.fresh, h.again⟩
  rcases hcases with ⟨e, heq⟩ | ⟨hchecks, hfits, heq⟩ | ⟨hchecks, hfits, heq⟩
  · simpa only [step, heq, reduceCtorEq, if_false, append_nil] using hkeep
  · have hoverflow := hkeep.overflow fun hretry => ((hcareful hchecks).2 hretry).2
    simpa only [step, heq, reduceCtorEq, if_false, append_nil] using hoverflow
  · have hretry : w.scope.streamRetry = false := by
      rw [← Bool.not_eq_true]
      exact fun hr => ((hcareful hchecks).2 hr).1 hfits
    have happend := hkeep.append hretry hfits ((hcareful hchecks).1 hfits)
    simpa only [step, heq, if_true] using happend

theorem pending_of_frame (hretry : s.streamRetry = true) (htake : s.streambuf.take s.streamI = encodeFrame C.W 1 data)
    (hi : s.streamI = data.length + 6) : pending s = data.drop 1 := by
  have hbody : s.streambuf.take (s.streamI - 2) = hdrFill 1 (data.length + 6) ++ data := by
    have hmin : s.streamI - 2 = min (s.streamI - 2) s.streamI := by omega
    rw [hmin, ← take_take, htake, encodeFrame, take_left']
    rw [length_append, length_hdrFill]
    omega
  simp only [pending, hretry, if_true]
  rw [hbody, show 5 = 4 + 1 from rfl, ← drop_drop, drop_left' (length_hdrFill _ _)]

theorem streamFinal_eq (h : Inv C w) (hpos : 5 < w.scope.streamI)
    (hlen : w.scope.streamRetry = false → w.scope.streamI + 2 < 2 ^ 16) :
    ∃ s data, streamFinal C w.scope = some s ∧ s.streambuf.length = C.streambufLen ∧ pending w.scope = data.drop 1 ∧
      s.streambuf.take s.streamI = encodeFrame C.W 1 data ∧ s.streamI = data.length + 6 ∧ data.length + 6 < 2 ^ 16 := by
  by_cases hretry : w.scope.streamRetry = true
  · obtain ⟨data, htake, hi, h16⟩ := h.again hretry
    exact ⟨w.scope, data, by rw [streamFinal, if_pos hretry], h.length, pending_of_frame hretry htake hi,
      htake, hi, h16⟩
  · rw [Bool.not_eq_true] at hretry
    have hroom := (h.fresh hretry).2 hpos
    have hdata : ((w.scope.streambuf.take w.scope.streamI).drop 4).length = w.scope.streamI - 4 := by
      rw [length_drop, length_take, h.length]
      omega
    have hfinal : streamFinal C w.scope = some { w.scope with
        streambuf := encodeFrame C.W 1 ((w.scope.streambuf.take w.scope.streamI).drop 4) ++
          w.scope.streambuf.drop (w.scope.streamI + 2)
        streamI := w.scope.streamI + 2 } := by
      rw [streamFinal, if_neg (by rw [hretry]; decide), frameFinal_eq (by omega) (by rw [h.length]; omega),
        Option.map_some]
    have hlength :
        (encodeFrame C.W 1 ((w.scope.streambuf.take w.scope.streamI).drop 4)).length = w.scope.streamI + 2 := by
      rw [length_encodeFrame, hdata]
      omega
    refine ⟨_, _, hfinal, ?_, ?_, take_left' hlength, ?_, ?_⟩
    · dsimp only
      rw [length_append, hlength, length_drop, h.length]
      omega
    · simp only [pending, hretry, Bool.false_eq_true, if_false]
      rw [drop_drop]
    · dsimp only
      omega
    · have := hlen hretry
      omega

theorem stream_inv (h : Inv C w) {ok : Bool} (hcareful : Careful C w (.stream ok)) :
    Inv C (step C w (.stream ok)) := by
  simp only [step, nxscopeStream]
  by_cases hstart : w.scope.start = true
  swap
  · rw [if_pos (by simpa using hstart)]
    simpa using h
  rw [if_neg (by simp [hstart])]
  by_cases hempty : w.scope.streamI ≤ 5
  · rw [if_pos hempty]
    simpa using h
  rw [if_neg hempty]
  obtain ⟨s, data, hfinal, hlength, hpending, htake, hi, h16⟩ :=
    streamFinal_eq h (by omega) (hcareful hstart (by omega))
  rw [hfinal]
  cases ok with
  | false =>
    have hpending' : pending { s with streamRetry := true } = data.drop 1 :=
      pending_of_frame (s := { s with streamRetry := true }) rfl htake hi
    simp only [Bool.false_eq_true, if_false, Option.toList_none, append_nil]
    refine ⟨⟨h.delivers.frames, ?_⟩, hlength, fun hr => absurd hr.symm Bool.false_ne_true,
      fun _ => ⟨data, htake, hi, h16⟩⟩
    rw [hpending', ← hpending]
    exact h.delivers.samples
  | true =>
    have hreset : pending (streamReset { s with streamRetry := false }) = [] :=
      drop_of_length_le (length_take_le _ _)
    simp only [if_true, Option.toList_some, htake]
    refine ⟨h.delivers.send h16 hpending hreset, length_set.trans hlength, fun _ => ⟨Nat.le_refl 5, fun h5 => ?_⟩,
      fun hr => absurd hr Bool.false_ne_true⟩
    exact absurd h5 (Nat.lt_irrefl 5)

theorem step_inv (h : Inv C w) (c : Call) (hcareful : Careful C w c) : Inv C (step C w c) := by
  cases c with
  | put p => exact put_inv h hcareful
  | stream ok => exact stream_inv h hcareful

end

/-- In every run whose calls meet the condition, an accepted sample is sent once, or waits in the buffer. -/
theorem delivers_once (start : Bool) (chinfo : UInt8 → ChInfo) (calls : List Call)
    (hcareful : Guarded (step C) (Careful C) (.init C start chinfo) calls) :
    Along (step C) (Delivers C.W) (.init C start chinfo) calls := by
  have hinv : Along (step C) (Inv C) (.init C start chinfo) calls :=
    along_of_guarded (fun _ c h hc => step_inv h c hc) (Inv.init C start chinfo) hcareful
  exact hinv.mono fun _ h => h.delivers

def smallConfig : Config := ⟨.bits32, 64, Nat.le_of_ble_eq_true rfl, 2, true, false, true⟩

def byteChannel (_ : UInt8) : ChInfo := ⟨true, .uint8, 1, 0, 0⟩

def putByte (b : UInt8) : Call := .put ⟨.uint8, 0, fun _ => b, 1, fun _ => 0, 0, fun h => nomatch h⟩

theorem delivers_after_failure :
    let calls := [putByte 7, putByte 8, .stream false, .stream true, putByte 9, .stream true]
    Along (step smallConfig) (Delivers .bits32) (.init smallConfig true byteChannel) calls :=
  delivers_once smallConfig true byteChannel _ (by decide +kernel)

/-- The second sample is appended behind the CRC of the first frame, which is sent again with it. -/
theorem appended_behind_crc :
    let w := replay (step smallConfig) (.init smallConfig true byteChannel)
      [putByte 7, .stream false, putByte 8, .stream true]
    w.accepted = [[0, 7], [0, 8]] ∧ w.sent.map (List.drop 9) = [[0, 8]] ∧ w.sent.flatMap (payload .bits32) = [0, 7] ∧
      pending w.scope = [] ∧ ¬ Delivers .bits32 w := by
  refine ⟨by decide +kernel, by decide +kernel, by decide +kernel, by decide +kernel, fun h => ?_⟩
  exact absurd h.samples (by decide +kernel)

end NuttxApps.Nxscope
