import NuttxApps.Zmodem.Window

/-!
# Recovery of the sender

Once the receiver has asked for the data of a file, it may ask again for any position, and the sender should go on from
there (`Recovers`). That is so in the four states in which a file is sent (`SState.active`), and all headers that do not
end the file lead from one to another, except for `ZSINIT`, after which only `ZRINIT` leads on (`SState.adrift`).
-/

namespace NuttxApps.Zmodem

open Replay List

structure SInput.Continues (e : SInput) : Prop where
  rinit : e.type ≠ .rinit
  skip : e.type ≠ .skip
  abort : e.type ≠ .abort
  ferr : e.type ≠ .ferr
  timeout : e.type ≠ .timeout
  seekok : e.seekok = true

structure SInput.Asks (e : SInput) : Prop where
  type : e.type = .rpos
  seekok : e.seekok = true

namespace Zms

/-- The sender sends a `ZDATA` header with the position and, if there are data, a packet that begins with them. -/
def Recovers (C : SConfig) (s : Sender × Ret) (e : SInput) : Prop :=
  ∃ tail, (step C s e).1.sent = s.1.sent ++ .header .data e.value :: tail ∧
    (e.value.toNat < s.1.file.length →
      ∃ p more, tail = .data p :: more ∧ p.data ≠ [] ∧ p.data <+: s.1.file.drop e.value.toNat)

/-- There are data behind the position, their number as an `int` is positive, and the buffer takes some of them. -/
def CanSend (C : SConfig) (file : List UInt8) (value : UInt32) : Prop :=
  value.toNat < file.length → 0 < ((file.length : Int) - value.toNat).bmod (2 ^ 32) ∧ 10 ≤ C.sndbufsize

variable {C : SConfig} {r r' r'' : Sender} {e : SInput} {s : Sender × Ret} {evs : List SInput}

structure Streams (r r' : Sender) : Prop where
  active : r'.state.active
  file : r'.file = r.file
  sent : r.sent <+: r'.sent

theorem Streams.trans (h : Streams r r') (h' : Streams r' r'') : Streams r r'' :=
  ⟨h'.active, h'.file.trans h.file, h.sent.trans h'.sent⟩

theorem streams_settle (type : UInt8) (r : Sender) : Streams r (settle type r) := by
  rw [settle]
  split
  · exact ⟨rfl, rfl, prefix_append _ _⟩
  · split
    · refine ⟨?_, rfl, prefix_rfl⟩
      cases r.eof <;> rfl
    · exact ⟨rfl, rfl, prefix_rfl⟩

theorem streams_round (C : SConfig) (wait : Bool) (r : Sender) : Streams r (round C wait r).1 := by
  rw [round]
  split
  · exact ⟨rfl, rfl, prefix_rfl⟩
  · have hsettle := streams_settle (emit C (wait || (sndsize r).2) r).2 (emit C (wait || (sndsize r).2) r).1
    exact ⟨hsettle.active, hsettle.file, (prefix_append _ _).trans hsettle.sent⟩

theorem streams_rounds (C : SConfig) (n : Nat) (wait : Bool) (r : Sender) : Streams r (rounds C n wait r) := by
  induction n generalizing wait r with
  | zero => exact streams_round C wait r
  | succ n ih =>
    rw [rounds]
    split
    · exact (streams_round C wait r).trans (ih _ _)
    · exact streams_round C wait r

theorem sent_round_sendpacket (C : SConfig) (e : SInput) (r : Sender) :
    (round C false r).1.sent <+: (sendpacket C e r).1.sent := by
  rw [sendpacket]
  cases e.quiet with
  | zero => exact prefix_rfl
  | succ n =>
    rw [rounds]
    split
    · exact (streams_rounds C n _ _).sent
    · exact prefix_rfl

theorem sent_sendpacket_of_le (h : (sndsize r).1 ≤ 0) (e : SInput) : (sendpacket C e r).1.sent = r.sent := by
  have hround : (round C false r).1 = { r with state := .sendwait } := by
    rw [round]
    rw [if_pos h]
  rw [sendpacket]
  cases e.quiet with
  | zero =>
    rw [rounds, hround]
  | succ n =>
    rw [rounds]
    rw [hround, if_neg (by simp)]

theorem sent_emit (C : SConfig) (wait : Bool) (r : Sender) : ∃ p,
    (emit C wait r).1.sent = r.sent ++ [.data p] ∧ p.data = (r.file.drop r.offset).take (filled C r).1 :=
  ⟨_, rfl, rfl⟩

theorem sent_sendpacket_of_pos (h : 0 < (sndsize r).1) (e : SInput) : ∃ p more,
    (sendpacket C e r).1.sent = r.sent ++ .data p :: more ∧ p.data = (r.file.drop r.offset).take (filled C r).1 := by
  obtain ⟨more, hmore⟩ := sent_round_sendpacket C e r
  rw [round] at hmore
  rw [if_neg (by omega)] at hmore
  obtain ⟨eof, heof⟩ :=
    (streams_settle (emit C (false || (sndsize r).2) r).2 (emit C (false || (sndsize r).2) r).1).sent
  obtain ⟨p, hp, hdata⟩ := sent_emit C (false || (sndsize r).2) r
  refine ⟨p, eof ++ more, ?_, hdata⟩
  rw [← hmore, ← heof, hp]
  simp

theorem sndsize_of_acked (h : r.lastoffs = r.offset) :
    (sndsize r).1 = ((r.file.length : Int) - r.offset).bmod (2 ^ 32) := by
  rw [sndsize, h, sub_self, Int.zero_bmod]
  split
  · dsimp only
    rw [if_neg (by omega)]
  · rfl

def GoesOn (r : Sender) (p : Sender × Ret) : Prop := Streams r p.1 ∧ p.2 = .ok

theorem GoesOn.of {p : Sender × Ret} (h : GoesOn r' p) (hfile : r'.file = r.file) (hsent : r.sent <+: r'.sent) :
    GoesOn r p :=
  ⟨⟨h.1.active, h.1.file.trans hfile, hsent.trans h.1.sent⟩, h.2⟩

theorem goesOn_sendpacket (C : SConfig) (e : SInput) (r : Sender) : GoesOn r (sendpacket C e r) :=
  ⟨streams_rounds C e.quiet false r, rfl⟩

theorem goesOn_startfiledata (hseek : e.seekok) (C : SConfig) (r : Sender) : GoesOn r (startfiledata C e r) := by
  rw [startfiledata, if_pos hseek]
  exact (goesOn_sendpacket C e _).of rfl (prefix_append _ _)

theorem goesOn_sendnak (hseek : e.seekok) (C : SConfig) (r : Sender) : GoesOn r (sendnak C e r) := by
  rw [sendnak, if_pos hseek]
  exact (goesOn_sendpacket C e _).of rfl prefix_rfl

theorem acknowledge_eq (e : SInput) (r : Sender) : ∃ lastoffs, acknowledge e r = { r with lastoffs := lastoffs } := by
  rw [acknowledge]
  split <;> exact ⟨_, rfl⟩

theorem goesOn_sendwaitack (C : SConfig) (e : SInput) (r : Sender) : GoesOn r (sendwaitack C e r) := by
  obtain ⟨lastoffs, hack⟩ := acknowledge_eq e r
  rw [sendwaitack, hack]
  exact (goesOn_sendpacket C e _).of rfl (prefix_append _ _)

theorem goesOn_senddoneack (e : SInput) (r : Sender) : GoesOn r (senddoneack e r) := by
  obtain ⟨lastoffs, hack⟩ := acknowledge_eq e r
  rw [senddoneack, hack]
  exact ⟨⟨rfl, rfl, prefix_append _ _⟩, rfl⟩

theorem goesOn_entry (hactive : r.state.active) (he : e.Continues) (hne : e.type ≠ .sinit) :
    GoesOn r (event C r e) := by
  have htakes := event_takes C r e
  generalize event C r e = next at htakes
  cases htakes with
  | quiet hcalm hadds =>
    have hgoes := hcalm.goesOn.resolve_right (by simp [hne, he.rinit, he.skip, he.abort, he.ferr, he.timeout]) hactive
    exact ⟨⟨hgoes.1, rfl, hadds.prefix⟩, hgoes.2⟩
  | rinit htype => exact absurd htype he.rinit
  | restart _ _ => exact (goesOn_startfiledata he.seekok C _).of rfl prefix_rfl
  | packet _ _ => exact (goesOn_sendpacket C e _).of rfl prefix_rfl
  | waitack _ _ => exact (goesOn_sendwaitack C e _).of rfl prefix_rfl
  | nak _ _ => exact (goesOn_sendnak he.seekok C _).of rfl prefix_rfl
  | doneack _ _ => exact (goesOn_senddoneack e _).of rfl prefix_rfl
  | resend _ _ => exact ⟨⟨rfl, rfl, prefix_append _ _⟩, rfl⟩

theorem event_rpos (C : SConfig) (hstate : r.state.active ∨ r.state = .filewait ∨ r.state = .crcwait)
    (htype : e.type = .rpos) : ∃ r₁, event C r e = startfiledata C e r₁ ∧ r₁.file = r.file ∧ r₁.sent = r.sent := by
  rw [event, htype]
  generalize r.state = state at hstate
  cases state with
  | start | initack | finish | command | message | done => simp [SState.active] at hstate
  | filewait | crcwait | sending | sendwait | senddone | sendeof => exact ⟨_, rfl, rfl, rfl⟩

theorem recovers_active_iff (C : SConfig) (hstate : r.state.active) (he : e.Asks) :
    Recovers C (r, .ok) e ↔ CanSend C r.file e.value := by
  obtain ⟨r₁, hevent, hfile, hsent⟩ := event_rpos C (.inl hstate) he.type
  have hstep : step C (r, .ok) e = sendpacket C e
      ({ r₁ with zrpos := e.value.toNat, offset := e.value.toNat, lastoffs := e.value.toNat }.sendhdr
        .data e.value) := by
    rw [step, if_pos rfl, hevent, startfiledata, if_pos he.seekok]
  generalize hr₂ : ({ r₁ with
    zrpos := e.value.toNat, offset := e.value.toNat, lastoffs := e.value.toNat } : Sender).sendhdr
      .data e.value = r₂ at hstep
  have hfile₂ : r₂.file = r.file := by rw [← hr₂, ← hfile]; rfl
  have hsent₂ : r₂.sent = r.sent ++ [.header .data e.value] := by rw [← hr₂, ← hsent]; rfl
  have hoffset : r₂.offset = e.value.toNat := by rw [← hr₂]; rfl
  have hsize : (sndsize r₂).1 = ((r.file.length : Int) - e.value.toNat).bmod (2 ^ 32) := by
    rw [sndsize_of_acked (by rw [← hr₂]; rfl), hfile₂, hoffset]
  rw [Recovers, hstep]
  dsimp only
  rcases Int.lt_or_le 0 (sndsize r₂).1 with hpos | hle
  · obtain ⟨p, more, hmore, hdata⟩ := sent_sendpacket_of_pos (C := C) hpos e
    rw [hfile₂, hoffset] at hdata
    have hcons : (sendpacket C e r₂).1.sent = r.sent ++ .header .data e.value :: .data p :: more := by
      rw [hmore, hsent₂, append_assoc]
      rfl
    constructor
    · rintro ⟨tail, htail, hrest⟩ hlt
      obtain ⟨p', more', rfl, hne, -⟩ := hrest hlt
      rw [hcons, append_cancel_left_eq, List.cons.injEq, List.cons.injEq, Sent.data.injEq] at htail
      refine ⟨hsize ▸ hpos, Nat.le_of_not_lt fun hsmall => hne ?_⟩
      rw [← htail.2.1, hdata, filled_eq_zero hsmall, take_zero]
    · intro hcan
      refine ⟨_, hcons, fun hlt => ⟨p, more, rfl, ?_, hdata ▸ take_prefix _ _⟩⟩
      have hfilled : 0 < (filled C r₂).1 := filled_pos (hcan hlt).2 (by rw [hoffset, hfile₂]; exact hlt)
      rw [hdata, ← length_pos_iff, length_take, length_drop]
      omega
  · rw [sent_sendpacket_of_le hle, hsent₂]
    constructor
    · rintro ⟨tail, htail, hrest⟩ hlt
      obtain ⟨p, more, rfl, -⟩ := hrest hlt
      simp at htail
    · intro hcan
      refine ⟨[], rfl, fun hlt => absurd (hcan hlt).1 ?_⟩
      omega

theorem active_run (hevs : ∀ e ∈ evs, e.Continues) (hne : ∀ e ∈ evs, e.type ≠ .sinit) (hactive : s.1.state.active)
    (hok : s.2 = .ok) :
    (replay (step C) s evs).1.state.active ∧ (replay (step C) s evs).2 = .ok ∧
      (replay (step C) s evs).1.file = s.1.file := by
  induction evs generalizing s with
  | nil => exact ⟨hactive, hok, rfl⟩
  | cons e evs ih =>
    obtain ⟨he, hevs⟩ := forall_mem_cons.mp hevs
    obtain ⟨hne₀, hne⟩ := forall_mem_cons.mp hne
    obtain ⟨hstreams, hret⟩ := goesOn_entry (C := C) hactive he hne₀
    have hstep : step C s e = event C s.1 e := if_pos hok
    rw [replay_cons, hstep]
    obtain ⟨hactive', hok', hfile⟩ := ih hevs hne hstreams.active hret
    exact ⟨hactive', hok', hfile.trans hstreams.file⟩

theorem rank_of_adrift {state : SState} (h : state.adrift) : state.rank = 0 := by
  cases state <;> first | rfl | cases h

theorem adrift_step (he : e.Continues) (h : s.1.state.adrift) : (step C s e).1.state.adrift := by
  have hrank := rank_of_adrift h
  rw [step]
  split
  · have htakes := event_takes C s.1 e
    generalize event C s.1 e = next at htakes
    cases htakes with
    | quiet hcalm _ => exact hcalm.adrift.resolve_right (by simp [he.rinit, he.abort, he.ferr]) h
    | rinit htype => exact absurd htype he.rinit
    | restart hpos _ => omega
    | packet hstate _ | waitack hstate _ | doneack hstate _ | resend hstate _ => rw [hstate] at h; cases h
    | nak hstate _ => rcases hstate with hstate | hstate | hstate <;> rw [hstate] at h <;> cases h
  · exact h

theorem adrift_run (hevs : ∀ e ∈ evs, e.Continues) (h : s.1.state.adrift) : (replay (step C) s evs).1.state.adrift :=
  replay_keeps (I := fun s : Sender × Ret => s.1.state.adrift) (fun _ e he hs => adrift_step (hevs e he) hs) h

theorem adrift_of_sinit (hactive : s.1.state.active) (hok : s.2 = .ok) (htype : e.type = .sinit) :
    (step C s e).1.state.adrift := by
  rw [step, if_pos hok, event, htype]
  generalize s.1.state = state at hactive
  cases state with
  | start | initack | filewait | crcwait | finish | command | message | done => simp [SState.active] at hactive
  | sending | sendwait | senddone | sendeof => rfl

theorem adrift_run_of_sinit (hevs : ∀ e ∈ evs, e.Continues) (hsinit : ∃ e ∈ evs, e.type = .sinit)
    (hactive : s.1.state.active) (hok : s.2 = .ok) : (replay (step C) s evs).1.state.adrift := by
  induction evs generalizing s with
  | nil => simp at hsinit
  | cons e evs ih =>
    obtain ⟨he, hevs⟩ := forall_mem_cons.mp hevs
    rw [replay_cons]
    by_cases htype : e.type = .sinit
    · exact adrift_run hevs (adrift_of_sinit hactive hok htype)
    · obtain ⟨hstreams, hret⟩ := goesOn_entry (C := C) hactive he htype
      rw [show step C s e = event C s.1 e from if_pos hok]
      refine ih hevs ?_ hstreams.active hret
      simpa [htype] using hsinit

theorem not_recovers_adrift (h : s.1.state.adrift) (htype : e.type = .rpos) : ¬ Recovers C s e := by
  have hsent : (step C s e).1.sent = s.1.sent := by
    rw [step]
    split
    · rw [event, htype]
      generalize s.1.state = state at h
      cases state with
      | initack | filewait | crcwait | sending | sendwait | senddone | sendeof | finish | done =>
        simp [SState.adrift] at h
      | start | command | message => rfl
    · rfl
  rintro ⟨tail, htail, -⟩
  rw [hsent] at htail
  simp at htail

end Zms

open Zms

/-- From the first `ZRPOS` for a file on, the sender recovers on every `ZRPOS`, just if no `ZSINIT` came between and
what is behind the position can be sent. -/
theorem recovers_iff (C : SConfig) (r : Sender) (hr : r.state = .filewait ∨ r.state = .crcwait) (first : SInput)
    (hfirst : first.Asks) (evs : List SInput) (hevs : ∀ e ∈ evs, e.Continues) (last : SInput) (hlast : last.Asks) :
    Recovers C (replay (Zms.step C) (r, .ok) (first :: evs)) last ↔
      (∀ e ∈ evs, e.type ≠ .sinit) ∧ CanSend C r.file last.value := by
  obtain ⟨r₁, hevent, hfile, -⟩ := event_rpos C (.inr hr) hfirst.type
  obtain ⟨hstreams, hok⟩ := goesOn_startfiledata hfirst.seekok C r₁
  rw [replay_cons, show Zms.step C (r, .ok) first = startfiledata C first r₁ from (if_pos rfl).trans hevent]
  by_cases hne : ∀ e ∈ evs, e.type ≠ .sinit
  · obtain ⟨hactive, hret, hsame⟩ := active_run (C := C) hevs hne hstreams.active hok
    generalize replay (Zms.step C) (startfiledata C first r₁) evs = s at hactive hret hsame
    rw [and_iff_right hne, show s = (s.1, Ret.ok) from Prod.ext rfl hret, recovers_active_iff C hactive hlast, hsame,
      hstreams.file, hfile]
  · have hadrift := adrift_run_of_sinit (C := C) hevs (by simpa using hne) hstreams.active hok
    exact iff_of_false (not_recovers_adrift hadrift hlast.type) fun h => hne h.1

def threeBytes : Sender := { Sender.init with state := .filewait, dpkttype := 0x6b, file := [1, 2, 3] }

def headerWith (type : EventType) (value : UInt32) : SInput := ⟨type, value, true, 0⟩

theorem recovers_after_nak :
    Recovers defaultBuffer (replay (Zms.step defaultBuffer) (threeBytes, .ok) [headerWith .rpos 0, headerWith .nak 0])
      (headerWith .rpos 1) :=
  (recovers_iff defaultBuffer threeBytes (.inl rfl) (headerWith .rpos 0) ⟨rfl, rfl⟩ [headerWith .nak 0]
    (forall_mem_singleton.mpr ⟨by decide, by decide, by decide, by decide, by decide, rfl⟩) (headerWith .rpos 1)
    ⟨rfl, rfl⟩).mpr ⟨by decide, fun _ => ⟨by decide, by decide⟩⟩

theorem not_recovers_after_sinit :
    ¬ Recovers defaultBuffer
      (replay (Zms.step defaultBuffer) (threeBytes, .ok) [headerWith .rpos 0, headerWith .sinit 0])
      (headerWith .rpos 1) :=
  not_recovers_adrift (show SState.adrift .start = true from rfl) rfl

end NuttxApps.Zmodem
