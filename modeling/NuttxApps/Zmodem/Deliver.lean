import NuttxApps.Zmodem.Receive

/-!
# What is in a received file

When `zmr_zeof` accepts the end of a file, the file of the last accepted name should hold the data accepted since
(`Intact`). It does exactly if no file was open when that name came (`zeof_intact_iff`).
-/

namespace NuttxApps.Zmodem

open Files Replay Option

variable {C : RConfig} {r : Receiver} {e : RInput} {g : Received}

/-- The file of the last accepted name holds the data accepted since, as many bytes as `offset` says. -/
def Receiver.Intact (r : Receiver) : Prop :=
  ∃ g file, r.received = some g ∧ r.fs.dir g.path = some file ∧ r.fs.data file = g.data ∧ g.data.length = r.offset

def Receiver.NamedClosed (r : Receiver) : Prop := ∃ g, r.received = some g ∧ g.closed = true

def Receiver.Expects (r : Receiver) : Prop := r.state = .readready ∨ r.state = .reading

def RState.quiet : RState → Bool
  | .crcwait | .readready | .reading => false
  | _ => true

def AcceptsEof (s : Receiver × Ret) (e : RInput) : Prop :=
  s.2 = .ok ∧ s.1.Expects ∧ e.type = .eof ∧ e.position.toNat = s.1.offset

namespace Zmr

structure Filed (r : Receiver) (g : Received) : Prop where
  received : r.received = some g
  isOpen : r.outfd.isSome
  closed : g.closed = true → ∀ fd, r.outfd = some fd → Holds r.fs g.path fd g.data ∧ r.offset = g.data.length
  other : g.closed = false → r.fs.dir g.path = none

/-- While data are expected, a file is open; `ZMR_CRCWAIT` is not reached. -/
structure Inv (r : Receiver) : Prop where
  filed : r.Expects → ∃ g, Filed r g
  state_ne : r.state ≠ .crcwait

def Good (p : Receiver × Ret) : Prop := p.2 = .ok → Inv p.1

theorem good_of_quiet {ret : Ret} (h : r.state.quiet = true) : Good (r, ret) := by
  refine fun _ => ⟨fun hr => ?_, fun hstate => ?_⟩
  · rcases hr with hr | hr <;> rw [hr] at h <;> cases h
  · rw [hstate] at h
    cases h

theorem good_of_filed {ret : Ret} (h : Filed r g) (hr : r.Expects) : Good (r, ret) := by
  refine fun _ => ⟨fun _ => ⟨g, h⟩, fun hstate => ?_⟩
  rcases hr with hr | hr <;> rw [hstate] at hr <;> cases hr

theorem good_of_ret {ret : Ret} (h : ret ≠ .ok) : Good (r, ret) := fun hret => absurd hret h

theorem good_zrinit (e : RInput) (r : Receiver) : Good (zrinit e r) := good_of_quiet rfl

section

variable (e : RInput) (r : Receiver)

theorem good_zfin : Good (zfin e { r with state := .finish }) :=
  good_of_quiet rfl

theorem good_startto : Good (startto e r) := by
  rw [startto]
  split
  · exact good_zrinit e _
  · exact good_of_ret nofun

theorem good_zsrintdata : Good (zsrintdata C e { r with state := .start }) := by
  rw [zsrintdata]
  split
  · exact good_of_quiet rfl
  · exact good_of_quiet rfl

theorem good_rcvto : Good (rcvto e r) := by
  rw [rcvto]
  split
  · exact good_of_ret nofun
  · exact good_zrinit e _

end

theorem Filed.congr {r' : Receiver} (h : Filed r g) (hreceived : r'.received = r.received) (houtfd : r'.outfd = r.outfd)
    (hfs : r'.fs = r.fs) (hoffset : r'.offset = r.offset) : Filed r' g where
  received := hreceived.trans h.received
  isOpen := houtfd ▸ h.isOpen
  closed := fun hc fd hfd => by
    rw [hfs, hoffset]
    exact h.closed hc fd (houtfd ▸ hfd)
  other := fun hc => hfs ▸ h.other hc

section

variable (h : Filed r g) (hr : r.Expects) (e : RInput)

include h hr

theorem good_badrpos : Good (badrpos e r) :=
  good_of_filed (h.congr rfl rfl rfl rfl) hr

theorem good_zdata : Good (zdata e r) := by
  rw [zdata]
  split
  · exact good_of_filed (h.congr rfl rfl rfl rfl) hr
  · exact good_of_filed h hr

theorem good_fileto : Good (fileto e r) := by
  have hne : r.state ≠ .crcwait := fun hstate => by
    rcases hr with hr | hr <;> rw [hstate] at hr <;> cases hr
  by_cases hlimit : 2 < r.ntimeouts + 1
  · simp only [fileto, if_pos hlimit]
    exact good_zrinit e _
  · simp only [fileto, if_neg hlimit, if_neg hne]
    have hcount : Filed { r with ntimeouts := r.ntimeouts + 1 } g := h.congr rfl rfl rfl rfl
    exact good_badrpos hcount hr e

end

theorem good_zeof (h : Filed r g) (e : RInput) : Good (zeof e r) := by
  rw [zeof]
  split
  · exact good_of_filed (h.congr rfl rfl rfl rfl) (.inl rfl)
  · exact good_zrinit e _

theorem written_eq (pkttype : UInt8) (r : Receiver) :
    ∃ state sent, written pkttype r = { r with state := state, sent := sent } ∧
      (state = r.state ∨ state = .readready) := by
  by_cases hend : pkttype = 0x68 ∨ pkttype = 0x6b
  · simp only [written, if_pos hend]
    split
    · exact ⟨_, _, rfl, .inr rfl⟩
    · exact ⟨_, _, rfl, .inr rfl⟩
  · simp only [written, if_neg hend]
    split
    · exact ⟨_, _, rfl, .inl rfl⟩
    · exact ⟨_, _, rfl, .inl rfl⟩

theorem good_badcrc (h : Filed r g) : Good (badcrc C r) := by
  rw [badcrc]
  split
  · exact good_of_ret nofun
  · exact good_of_filed (h.congr rfl rfl rfl rfl) (.inl rfl)

theorem Filed.write {fd : Descriptor} (h : Filed r g) (hfd : r.outfd = some fd) (d : List UInt8) :
    Filed { r with
        fs := (r.fs.write fd d).1
        outfd := some (r.fs.write fd d).2
        offset := r.offset + d.length
        received := r.received.map fun g => { g with data := g.data ++ d } }
      { g with data := g.data ++ d } where
  received := by rw [h.received]; rfl
  isOpen := rfl
  closed := fun hc fd' hfd' => by
    obtain ⟨hholds, hoffset⟩ := h.closed hc fd hfd
    obtain rfl := some.inj hfd'
    refine ⟨hholds.write d, ?_⟩
    rw [List.length_append, ← hoffset]
  other := h.other

theorem good_filedata (h : Filed r g) (hr : r.Expects) (e : RInput) : Good (filedata C e r) := by
  rw [filedata]
  split
  · obtain ⟨fd, hfd⟩ := isSome_iff_exists.mp h.isOpen
    rw [hfd]
    obtain ⟨state, sent, heq, hstate⟩ := written_eq e.packet.pkttype
      { r with
        fs := (r.fs.write fd e.packet.data).1
        outfd := some (r.fs.write fd e.packet.data).2
        offset := r.offset + e.packet.data.length
        received := r.received.map fun g => { g with data := g.data ++ e.packet.data } }
    dsimp only
    rw [heq]
    refine good_of_filed ((h.write hfd e.packet.data).congr rfl rfl rfl rfl) ?_
    rcases hstate with rfl | rfl
    · exact hr
    · exact .inl rfl
  · exact good_badcrc h

theorem dir_accept (r : Receiver) (path : List UInt8) : (accept r path).fs.dir path = none := by
  rw [accept]
  split
  · exact r.fs.dir_unlink path
  · exact not_isSome_iff_eq_none.mp ‹_›

theorem good_openfile (r : Receiver) (path : List UInt8) (state : RState) :
    Good (openfile { accept r path with state := state }) := by
  cases hfd : r.outfd with
  | none =>
    simp only [accept, hfd]
    refine good_of_filed (g := ⟨path, [], true⟩) ⟨rfl, rfl, fun _ fd hfd' => ?_, nofun⟩ (.inl rfl)
    obtain rfl := some.inj hfd'
    exact ⟨holds_creat _ path, rfl⟩
  | some fd =>
    have hdir := dir_accept r path
    simp only [accept, hfd] at hdir ⊢
    exact good_of_filed (g := ⟨path, [], false⟩) ⟨rfl, rfl, nofun, fun _ => hdir⟩ (.inl rfl)

theorem good_filename (e : RInput) (r : Receiver) : Good (filename C e r) := by
  rw [filename]
  split
  · split
    · exact good_of_quiet rfl
    · exact good_openfile r _ _
  · exact good_of_quiet rfl

def Goes (r : Receiver) (e : RInput) (entry : RState × RAction) : Prop := Good (entry.2 e { r with state := entry.1 })

theorem goes_quiet {state : RState} (r : Receiver) (e : RInput) (h : state.quiet = true) :
    (evtable C state).All (Goes r e) := by
  cases state <;> simp only [evtable, Table.all_cons, Table.all_nil]
  case crcwait | readready | reading => cases h
  case start =>
    exact ⟨good_of_quiet rfl, good_of_quiet rfl, good_zrinit e _, good_zfin e r, good_zrinit e _, good_of_quiet rfl,
      good_of_quiet rfl, good_of_quiet rfl, good_startto e _, good_of_quiet rfl⟩
  case initwait => exact ⟨good_zsrintdata e r, good_rcvto e _, good_of_quiet rfl⟩
  case fileinfo => exact ⟨good_filename e _, good_rcvto e _, good_of_quiet rfl⟩
  case finish =>
    exact ⟨good_zrinit e _, good_of_quiet rfl, good_zfin e r, good_zfin e r, good_of_ret nofun, good_of_ret nofun,
      good_of_quiet rfl⟩
  case command | message => exact ⟨good_of_quiet rfl, good_of_ret nofun, good_of_quiet rfl⟩
  case done => exact ⟨good_of_ret nofun, good_of_quiet rfl⟩

theorem goes_readready (h : Filed r g) (e : RInput) : (evtable C .readready).All (Goes r e) := by
  have hf (state : RState) : Filed { r with state := state } g := h.congr rfl rfl rfl rfl
  simp only [evtable, Table.all_cons, Table.all_nil]
  exact ⟨good_zdata (hf .reading) (.inr rfl) e, good_badrpos (hf .readready) (.inl rfl) e, good_zeof (hf .start) e,
    good_zrinit e _, good_badrpos (hf .readready) (.inl rfl) e, good_zfin e r,
    good_fileto (hf .readready) (.inl rfl) e, good_of_filed (hf .readready) (.inl rfl)⟩

theorem goes_reading (h : Filed r g) (e : RInput) : (evtable C .reading).All (Goes r e) := by
  have hf (state : RState) : Filed { r with state := state } g := h.congr rfl rfl rfl rfl
  simp only [evtable, Table.all_cons, Table.all_nil]
  exact ⟨good_zrinit e _, good_of_quiet rfl, good_badrpos (hf .readready) (.inl rfl) e, good_zfin e r,
    good_zdata (hf .reading) (.inr rfl) e, good_zeof (hf .start) e, good_filedata (hf .reading) (.inr rfl) e,
    good_fileto (hf .reading) (.inr rfl) e, good_of_filed (hf .reading) (.inr rfl)⟩

theorem good_event (h : Inv r) (e : RInput) : Good (event C r e) := by
  have hall : (evtable C r.state).All (Goes r e) := by
    cases hstate : r.state with
    | readready =>
      obtain ⟨g, hg⟩ := h.filed (.inl hstate)
      exact goes_readready hg e
    | reading =>
      obtain ⟨g, hg⟩ := h.filed (.inr hstate)
      exact goes_reading hg e
    | crcwait => exact absurd hstate h.state_ne
    | _ => exact goes_quiet r e rfl
  exact hall.find e.type

variable {s : Receiver × Ret}

theorem good_step (h : Good s) (e : RInput) : Good (step C s e) := by
  rw [step]
  split
  · exact good_event (h ‹_›) e
  · exact h

theorem step_of_acceptsEof (h : AcceptsEof s e) :
    step C s e = zrinit e { s.1 with state := .start, outfd := none } := by
  obtain ⟨hok, hstate, htype, hpos⟩ := h
  rw [step, if_pos hok, event, htype]
  have hfind : (evtable C s.1.state).find .eof = (.start, zeof) := by
    rcases hstate with hstate | hstate <;> rw [hstate] <;> rfl
  rw [hfind]
  exact if_neg (not_not.mpr hpos)

theorem intact_iff_of_filed (hg : Filed s.1 g) (h : AcceptsEof s e) : (step C s e).1.Intact ↔ s.1.NamedClosed := by
  rw [step_of_acceptsEof h]
  constructor
  · rintro ⟨g', file, hreceived, hdir, -⟩
    obtain rfl : g' = g := some.inj (hreceived.symm.trans hg.received)
    refine ⟨g', hg.received, ?_⟩
    -- a name that came while a file was open leads nowhere
    by_contra hclosed
    have hnone := hg.other (Bool.not_eq_true _ ▸ hclosed)
    exact absurd (hdir.symm.trans hnone) nofun
  · rintro ⟨g', hreceived, hclosed⟩
    obtain rfl : g' = g := some.inj (hreceived.symm.trans hg.received)
    obtain ⟨fd, hfd⟩ := isSome_iff_exists.mp hg.isOpen
    obtain ⟨hholds, hoffset⟩ := hg.closed hclosed fd hfd
    exact ⟨g', fd.file, hg.received, hholds.dir, hholds.data, hoffset.symm⟩

end Zmr

/-- The end of a file that is accepted leaves the file of the last accepted name with exactly the data accepted since if
and only if no file was open when that name was accepted. -/
theorem zeof_intact_iff (C : RConfig) (fs : FileSystem (List UInt8)) (events : List RInput) :
    Guarded (Zmr.step C) (fun s e => AcceptsEof s e → ((Zmr.step C s e).1.Intact ↔ s.1.NamedClosed))
      (Receiver.init fs, .ok) events := by
  refine guarded_of_inv (I := Zmr.Good) (fun s e h _ => Zmr.good_step h e) (fun s e h _ haccepts => ?_)
    (Zmr.good_of_quiet rfl) (guarded_true _ _)
  obtain ⟨g, hg⟩ := (h haccepts.1).filed haccepts.2.1
  exact Zmr.intact_iff_of_filed hg haccepts

def packetOf (data : List UInt8) (pkttype : UInt8) : Packet := ⟨true, pkttype, data, [pkttype, 0, 0]⟩

def headerOf (type : EventType) (position : UInt32) : RInput := ⟨type, position, false, packetOf [] 0⟩

def dataOf (data : List UInt8) (pkttype : UInt8) : RInput := ⟨.datarcvd, 0, false, packetOf data pkttype⟩

def resend : List RInput :=
  [headerOf .file 0, dataOf [0x61, 0] 0x6b, headerOf .data 0, dataOf [1, 2] 0x6b,
    headerOf .rqinit 0, headerOf .file 0, dataOf [0x61, 0] 0x6b, headerOf .data 0, dataOf [1, 2] 0x6b,
    headerOf .data 2, dataOf [3] 0x68]

def sampleConfig : RConfig := ⟨20, 1, [0x2f, 0x74, 0x6d, 0x70]⟩

/-- The end of the file is accepted, but there is no such file. -/
theorem resent_file_lost :
    AcceptsEof (replay (Zmr.step sampleConfig) (Receiver.init .empty, .ok) resend) (headerOf .eof 3) ∧
      ¬ (replay (Zmr.step sampleConfig) (Receiver.init .empty, .ok) (resend ++ [headerOf .eof 3])).1.Intact := by
  refine ⟨⟨by decide, .inl (by decide), rfl, by decide⟩, ?_⟩
  rintro ⟨g, file, hreceived, hdir, -⟩
  have hg : (replay (Zmr.step sampleConfig) (Receiver.init .empty, .ok)
      (resend ++ [headerOf .eof 3])).1.received = some ⟨[0x2f, 0x74, 0x6d, 0x70, 0x2f, 0x61], [1, 2, 3], false⟩ := by
    decide
  obtain rfl := some.inj (hreceived.symm.trans hg)
  have hnone : (replay (Zmr.step sampleConfig) (Receiver.init .empty, .ok)
      (resend ++ [headerOf .eof 3])).1.fs.dir [0x2f, 0x74, 0x6d, 0x70, 0x2f, 0x61] = none := by
    decide
  exact absurd (hdir.symm.trans hnone) nofun

end NuttxApps.Zmodem
