import NuttxApps.Zmodem.Options

/-!
# Appending to a file

Under `ZMAPND`, `zmr_parsefilename` keeps the file, but `zmr_openfile` opens it with `O_TRUNC` (`append_truncates`). If
a file is open already, `zmr_openfile` opens none, and the data go to the end of the file that is open.
`append_keeps_iff` says so for every reception, by the condition `Named.Appends`; the invariant `Inv` relates the files,
the descriptor and the history.
-/

namespace NuttxApps.Zmodem

open Files Replay Option

structure Named.Asks (n : Named) : Prop where
  binary : n.f0 ≠ zcnl
  apnd : management n.f1 = .apnd

section

variable (n : Named) (file : Nat)

/-- Nothing was open, and the file was empty; or there are no data; or that file was open. -/
def Named.Appends (data : List UInt8) : Prop :=
  match n.outfd with
  | none => n.fs.data file = []
  | some fd => data = [] ∨ fd.file = file

def Named.contents (data : List UInt8) : List UInt8 :=
  match n.outfd with
  | none => data
  | some fd => if fd.file = file then n.fs.data file ++ data else n.fs.data file

def Named.Hits : Prop := ∀ fd, n.outfd = some fd → fd.file = file

end

def EndsFile (s : OReceiver × Outcome) (e : OInput) : Prop :=
  s.2 = .ret .ok ∧ s.1.Expects ∧ e.type = .eof ∧ e.position.toNat = s.1.offset

def OReceiver.Appended (x : OReceiver) (n : Named) (file : Nat) (data : List UInt8) : Prop :=
  ∃ file', x.fs.dir n.path = some file' ∧ x.fs.data file' = n.fs.data file ++ data

variable {file : Nat} {n : Named}

theorem contents_eq_iff {data : List UInt8} : n.contents file data = n.fs.data file ++ data ↔ n.Appends file data := by
  rw [Named.contents, Named.Appends]
  cases n.outfd with
  | none => simp
  | some fd =>
    by_cases hfile : fd.file = file
    · simp [hfile]
    · simp [hfile]

namespace Zmr.Options

/-- The file that is appended to still holds its contents; an open descriptor leads to it just if the data go there. -/
structure Appending (x : OReceiver) (n : Named) (file : Nat) (data : List UInt8) : Prop where
  dir : x.fs.dir n.path = some file
  data : x.fs.data file = n.contents file data
  outfd : ∀ fd, x.outfd = some fd → (fd.file = file ↔ n.Hits file)

/-- A descriptor is at the end of its file; a file whose CRC is awaited is not appended to; and while data are expected,
the conversion is the one the name came with. -/
structure Inv (x : OReceiver) : Prop where
  atEnd : ∀ fd, x.outfd = some fd → fd.pos = (x.fs.data fd.file).length
  appending : ∀ n g file, x.named = some n → x.received = some g → n.Asks → n.fs.dir n.path = some file →
    Appending x n file g.data
  crcwait : x.state = .crcwait → ∀ n, x.named = some n → ¬ n.Asks
  binary : x.Expects → ∀ n, x.named = some n → n.Asks → x.f0 ≠ zcnl

def Good (s : OReceiver × Outcome) : Prop := s.2 = .ret .ok → Inv s.1

variable {C : OConfig} {x : OReceiver} {e : OInput} {r : Receiver}

theorem Keeps.outfd_eq {r₀ : Receiver} (h : Keeps r₀ r) {fd : Descriptor} (hfd : r.outfd = some fd) :
    r₀.outfd = some fd := by
  rcases h.outfd with heq | hnone
  · exact heq ▸ hfd
  · cases hnone.symm.trans hfd

theorem Inv.keeps (h : Inv x) (hkeeps : Keeps x.toReceiver r) (hcrcwait : r.state = .crcwait → x.state = .crcwait)
    (hexpects : r.Expects → x.Expects) : Inv { x with toReceiver := r } where
  atEnd := fun fd hfd => by
    rw [show r.fs = _ from hkeeps.fs]
    exact h.atEnd fd (hkeeps.outfd_eq hfd)
  appending := fun n g file hn hg hasks hdir => by
    have happ := h.appending n g file hn (hkeeps.received ▸ hg) hasks hdir
    refine ⟨?_, ?_, fun fd hfd => happ.outfd fd (hkeeps.outfd_eq hfd)⟩ <;> rw [show r.fs = _ from hkeeps.fs]
    · exact happ.dir
    · exact happ.data
  crcwait := fun hstate => h.crcwait (hcrcwait hstate)
  binary := fun hstate => h.binary (hexpects hstate)

theorem good_lift {entry : RState × RAction} (h : Inv x) (hleads : Leads x.state entry) :
    Good (lift entry.2 e { x with state := entry.1 }) := by
  intro hret
  obtain ⟨hkeeps, hsettled⟩ := hleads e.toRInput { x.toReceiver with state := entry.1 } rfl
  exact h.keeps ⟨hkeeps.fs, hkeeps.outfd, hkeeps.received, hkeeps.sknoloc⟩ hsettled.crcwait
    (hsettled.expects (Outcome.ret.inj hret))

theorem Inv.of_quiet (h : Inv x) {y : OReceiver} (hfs : y.fs = x.fs) (houtfd : y.outfd = x.outfd)
    (hreceived : y.received = x.received) (hnamed : y.named = x.named) (hstate : y.state.quiet = true) : Inv y where
  atEnd := by
    rw [hfs, houtfd]
    exact h.atEnd
  appending := fun n g file hn hg hasks hdir => by
    obtain ⟨hd, hdata, hfd⟩ := h.appending n g file (hnamed ▸ hn) (hreceived ▸ hg) hasks hdir
    exact ⟨hfs ▸ hd, hfs ▸ hdata, houtfd ▸ hfd⟩
  crcwait := fun hcrc => by
    rw [hcrc] at hstate
    cases hstate
  binary := fun hexp => by
    rcases hexp with hexp | hexp <;> rw [hexp] at hstate <;> cases hstate

theorem good_zfile (h : Inv x) : Good (zfile e { x with state := .fileinfo }) :=
  fun _ => h.of_quiet rfl rfl rfl rfl rfl

theorem contents_append (data d : List UInt8) :
    (n.Hits file → n.contents file (data ++ d) = n.contents file data ++ d) ∧
      (¬ n.Hits file → n.contents file (data ++ d) = n.contents file data) := by
  rw [Named.Hits, Named.contents, Named.contents]
  cases n.outfd with
  | none => simp
  | some fd =>
    by_cases hfile : fd.file = file
    · simp [hfile]
    · simp [hfile]

variable {fd : Descriptor}

theorem data_write {ν : Type} (fs : FileSystem ν) (h : fd.pos = (fs.data fd.file).length)
    (text : List UInt8) (file : Nat) :
    (fs.write fd text).1.data file = if file = fd.file then fs.data file ++ text else fs.data file := by
  rw [FileSystem.write]
  dsimp only
  split_ifs with hfile
  · rw [hfile, h, overwrite_length]
  · rfl

theorem Inv.stored (h : Inv x) (hexpects : x.Expects) (hfd : x.outfd = some fd)
    {data text : List UInt8} (htext : x.f0 ≠ zcnl → text = data) {state : RState} {sent : List Reply} {newline : Bool}
    (hstate : state ≠ .crcwait) :
    Inv { x with
      toReceiver := { Options.stored x.toReceiver fd data text with state := state, sent := sent }
      newline := newline } where
  atEnd := fun fd' hfd' => by
    obtain rfl := some.inj hfd'
    have hend := h.atEnd fd hfd
    show fd.pos + text.length = ((x.fs.write fd text).1.data fd.file).length
    rw [data_write _ hend, if_pos rfl, List.length_append, hend]
  appending := fun n g file hn hg hasks hdir => by
    have hend := h.atEnd fd hfd
    have hbinary := htext (h.binary hexpects n hn hasks)
    obtain ⟨g₀, hg₀, rfl⟩ := map_eq_some_iff.mp hg
    obtain ⟨hd, hdata, hhits⟩ := h.appending n g₀ file hn hg₀ hasks hdir
    refine ⟨hd, ?_, fun fd' hfd' => ?_⟩
    · show (x.fs.write fd text).1.data file = n.contents file (g₀.data ++ data)
      rw [data_write _ hend, hbinary, hdata]
      split_ifs with hfile
      · rw [(contents_append _ _).1 ((hhits fd hfd).mp hfile.symm)]
      · rw [(contents_append _ _).2 fun hn => hfile ((hhits fd hfd).mpr hn).symm]
    · obtain rfl := some.inj hfd'
      exact hhits fd hfd
  crcwait := fun hcrc => absurd hcrc hstate
  binary := fun _ => h.binary hexpects

theorem Inv.written (h : Inv x) (hstate : x.state = .reading) (hfd : x.outfd = some fd)
    (pkttype : UInt8) {data text : List UInt8} (htext : x.f0 ≠ zcnl → text = data) (newline : Bool) :
    Inv { x with
      toReceiver := Zmr.written pkttype (Options.stored x.toReceiver fd data text)
      newline := newline } := by
  obtain ⟨state, sent, heq, hor⟩ := written_eq pkttype (Options.stored x.toReceiver fd data text)
  rw [heq]
  refine h.stored (.inr hstate) hfd htext ?_
  rcases hor with rfl | rfl
  · rw [show (Options.stored x.toReceiver fd data text).state = x.state from rfl, hstate]
    decide
  · decide

theorem good_filedata (h : Inv x) (hstate : x.state = .reading) : Good (filedata C e x) := by
  rw [filedata]
  split_ifs with hcnl
  · cases hfd : x.outfd with
    | none => exact fun hret => absurd hret (by simp)
    | some fd => exact fun _ => h.written hstate hfd _ (fun hne => absurd hcnl.1 hne) _
  · intro _
    show Inv { x with toReceiver := (Zmr.filedata C.toRConfig e.toRInput x.toReceiver).1 }
    rcases filedata_cases C.toRConfig e.toRInput x.toReceiver with ⟨fd, hfd, heq⟩ | ⟨hkeeps, hmem⟩
    · rw [heq]
      exact h.written hstate hfd _ (fun _ => rfl) _
    · refine h.keeps hkeeps (fun hcrc => ?_) fun _ => .inr hstate
      rw [show (Zmr.filedata _ _ _).1.state = _ from hcrc, hstate] at hmem
      exact absurd hmem (by decide)

section

variable (C : OConfig) (e : OInput) (x : OReceiver)

theorem manage_fst (path : List UInt8) :
    ∃ append uniqno, (manage C e x path).1 = { x with append := append, uniqno := uniqno } := by
  rw [manage]
  cases management x.f1 with
  | apnd => exact ⟨true, _, rfl⟩
  | unspecified | clob | unknown => exact ⟨_, _, rfl⟩
  | newl | crc | new | diff | prot =>
    dsimp only
    split <;> exact ⟨_, _, rfl⟩
  | chng =>
    dsimp only
    split
    · split <;> exact ⟨_, _, rfl⟩
    · exact ⟨_, _, rfl⟩

theorem parsefilename_cases :
    ∃ append, (∃ errno, parsefilename C e x = ({ x with append := append }, .refused errno)) ∨
      parsefilename C e x = manage C e { x with append := append } (C.pathname ++ 0x2f :: e.packet.string) := by
  rw [parsefilename]
  dsimp only
  split
  · exact ⟨x.append, .inl ⟨.einval, rfl⟩⟩
  · split
    · exact ⟨x.append, .inl ⟨.eexist, rfl⟩⟩
    · obtain ⟨append, hflag⟩ : ∃ append, (if x.f0 = zcresum then { x with append := true } else x) =
          { x with append := append } := by
        split
        · exact ⟨true, rfl⟩
        · exact ⟨x.append, rfl⟩
      rw [hflag]
      split
      · exact ⟨append, .inl ⟨.enoent, rfl⟩⟩
      · exact ⟨append, .inr rfl⟩

theorem parsefilename_spec :
    ∃ append uniqno, (parsefilename C e x).1 = { x with append := append, uniqno := uniqno } ∧
      ∀ path found, (parsefilename C e x).2 = .accepted path found → management x.f1 = .apnd → append = true := by
  obtain ⟨append, ⟨errno, heq⟩ | heq⟩ := parsefilename_cases C e x
  · rw [heq]
    exact ⟨append, x.uniqno, rfl, fun _ _ h => by cases h⟩
  · rw [heq]
    obtain ⟨append', uniqno, hfst⟩ := manage_fst C e { x with append := append } (C.pathname ++ 0x2f :: e.packet.string)
    refine ⟨append', uniqno, hfst, fun _ _ _ hapnd => ?_⟩
    have happend := congrArg OReceiver.append hfst
    rw [manage, hapnd] at happend
    exact happend.symm

end

structure Fresh (x : OReceiver) (n : Named) : Prop where
  fs : x.fs = n.fs
  outfd : x.outfd = n.outfd
  filename : x.filename = some n.path
  received : ∀ g, x.received = some g → g.data = []
  binary : x.f0 = n.f0

section

variable {g : Received} (h : Fresh x n) (hg : x.received = some g) (hdir : n.fs.dir n.path = some file)

include h hg hdir

theorem Fresh.ready (hfd : x.outfd = some fd) : Appending (Options.ready x fd).1 n file g.data := by
  have hnfd : n.outfd = some fd := h.outfd ▸ hfd
  refine ⟨?_, ?_, fun fd' hfd' => ?_⟩
  · show x.fs.dir n.path = some file
    rw [h.fs, hdir]
  · show x.fs.data file = n.contents file g.data
    rw [h.fs, h.received g hg, Named.contents, hnfd]
    simp
  · obtain rfl := some.inj (hfd.symm.trans hfd')
    simp [Named.Hits, hnfd]

theorem Fresh.creat (hfd : x.outfd = none) :
    Appending { x with fs := (x.fs.creat n.path).1, outfd := some (x.fs.creat n.path).2 } n file g.data := by
  have hcreat : x.fs.creat n.path =
      ({ x.fs with data := fun f => if f = file then [] else x.fs.data f }, ⟨file, 0⟩) := by
    rw [FileSystem.creat, h.fs, hdir]
  have hnfd : n.outfd = none := h.outfd ▸ hfd
  rw [hcreat]
  refine ⟨?_, ?_, fun fd hfd => ?_⟩
  · show x.fs.dir n.path = some file
    rw [h.fs, hdir]
  · rw [h.received g hg, Named.contents, hnfd]
    exact if_pos rfl
  · obtain rfl := some.inj hfd
    simp [Named.Hits, hnfd]

end

theorem good_openfile (hend : ∀ fd, x.outfd = some fd → fd.pos = (x.fs.data fd.file).length)
    (hfresh : ∀ n, x.named = some n → n.Asks → Fresh x n) : Good (openfile x) := by
  intro _
  have hbinary : ∀ n, x.named = some n → n.Asks → x.f0 ≠ zcnl := by
    intro n hn hasks
    rw [(hfresh n hn hasks).binary]
    exact hasks.binary
  rw [openfile]
  cases hfd : x.outfd with
  | some fd =>
    exact ⟨hend, fun n g file hn hg hasks hdir => (hfresh n hn hasks).ready hg hdir hfd, nofun, fun _ => hbinary⟩
  | none =>
    cases hname : x.filename with
    | none =>
      refine ⟨fun fd' hfd' => ?_, fun n g file hn hg hasks hdir => ?_, nofun, fun hexp => ?_⟩
      · cases hfd.symm.trans hfd'
      · cases hname.symm.trans (hfresh n hn hasks).filename
      · rcases hexp with hexp | hexp <;> cases hexp
    | some path =>
      have hholds := holds_creat x.fs path
      have hpath {n : Named} (hn : x.named = some n) (hasks : n.Asks) : path = n.path :=
        some.inj (hname.symm.trans (hfresh n hn hasks).filename)
      refine ⟨fun fd' hfd' => ?_, fun n g file hn hg hasks hdir => ?_, nofun, fun _ => hbinary⟩
      · obtain rfl := some.inj hfd'
        show (x.fs.creat path).2.pos = ((x.fs.creat path).1.data (x.fs.creat path).2.file).length
        rw [hholds.pos, hholds.data]
      · obtain rfl := hpath hn hasks
        obtain ⟨hd, hdata, hhits⟩ := (hfresh n hn hasks).creat hg hdir hfd
        exact ⟨hd, hdata, hhits⟩

theorem data_accept (x : OReceiver) (path : List UInt8) (found : Bool) : (accept x path found).fs.data = x.fs.data := by
  rw [accept]
  split
  · rfl
  · rfl

theorem good_proceed (hend : ∀ fd, x.outfd = some fd → fd.pos = (x.fs.data fd.file).length)
    (happend : management x.f1 = .apnd → x.append = true) (path : List UInt8) (found : Bool) :
    Good (proceed C e x path found) := by
  have hend' : ∀ fd, x.outfd = some fd → fd.pos = ((accept x path found).fs.data fd.file).length := by
    rw [data_accept]
    exact hend
  rw [proceed]
  split_ifs with hcrc
  · have hnot {n : Named} (hn : (accept x path found).named = some n) : ¬ n.Asks := by
      obtain rfl := some.inj hn
      exact fun hasks => absurd (hcrc.symm.trans hasks.apnd) (by decide)
    exact fun _ => ⟨hend', fun n g file hn hg hasks hdir => absurd hasks (hnot hn), fun _ n hn => hnot hn,
      fun hexp => by rcases hexp with hexp | hexp <;> cases hexp⟩
  · refine good_openfile hend' fun n hn hasks => ?_
    obtain rfl := some.inj hn
    have hfs : (accept x path found).fs = x.fs := by
      exact if_neg fun hunlink => hunlink.2 (happend hasks.apnd)
    exact ⟨hfs, rfl, rfl, fun g hg => by obtain rfl := some.inj hg; rfl, rfl⟩

theorem good_filename (h : Inv x) (state : RState) : Good (filename C e { x with state := state }) := by
  rw [filename]
  split
  · obtain ⟨append, uniqno, hfst, hflag⟩ := parsefilename_spec C e { x with state := state, filename := none }
    rcases hparse : parsefilename C e { x with state := state, filename := none } with ⟨y, parsed⟩
    rw [hparse] at hfst hflag
    obtain rfl := hfst
    cases parsed with
    | accepted path found =>
      exact good_proceed (x := { x with state := state, filename := none, append := append, uniqno := uniqno })
        h.atEnd (hflag path found rfl) path found
    | refused errno => exact fun _ => h.of_quiet rfl rfl rfl rfl rfl
    | never => exact fun hret => absurd hret (by simp)
  · exact fun _ => h.of_quiet rfl rfl rfl rfl rfl

theorem inv_init (fs : FileSystem (List UInt8)) : Inv (OReceiver.init fs) where
  atEnd := fun _ h => by cases h
  appending := fun _ _ _ h => by cases h
  crcwait := fun h => by cases h
  binary := fun _ _ h => by cases h

theorem good_event (h : Inv x) (e : OInput) : Good (event C x e) := by
  rw [event, entry]
  cases hopt : optioned C x.state e.type with
  | none => exact good_lift h (leads_find hopt)
  | some entry =>
    rw [optioned.eq_def] at hopt
    split at hopt
    case h_7 => cases hopt
    all_goals
      rename_i hstate _
      obtain rfl := some.inj hopt
    · exact good_zfile h
    · exact good_zfile h
    · exact good_zfile h
    · exact good_filename h .readready
    · exact good_openfile h.atEnd fun n hn hasks => absurd hasks (h.crcwait hstate n hn)
    · have hx : { x with state := .reading } = x := by rw [← hstate]
      rw [hx]
      exact good_filedata h hstate

variable {s : OReceiver × Outcome}

theorem good_step (h : Good s) (e : OInput) : Good (step C s e) := by
  rw [step]
  split
  · exact good_event (h ‹_›) e
  · exact h

theorem fs_step_of_endsFile (h : EndsFile s e) : (step C s e).1.fs = s.1.fs := by
  obtain ⟨hret, hexpects, htype, hpos⟩ := h
  have haccepts : AcceptsEof (s.1.toReceiver, .ok) e.toRInput := ⟨rfl, hexpects, htype, hpos⟩
  have hopt : optioned C s.1.state e.type = none := by
    rw [htype]
    rcases hexpects with hstate | hstate <;> rw [hstate] <;> rfl
  have hstep := step_of_acceptsEof (C := C.toRConfig) haccepts
  rw [Zmr.step, if_pos rfl, Zmr.event] at hstep
  rw [step, if_pos hret, event, entry, hopt]
  show (((evtable C.toRConfig s.1.state).find e.type).2 e.toRInput _).1.fs = s.1.fs
  rw [hstep]
  rfl

theorem appended_iff {data : List UInt8} (h : EndsFile s e)
    (happ : Appending s.1 n file data) : (step C s e).1.Appended n file data ↔ n.Appends file data := by
  rw [OReceiver.Appended, fs_step_of_endsFile h, ← contents_eq_iff, ← happ.data]
  constructor
  · rintro ⟨file', hdir, hdata⟩
    obtain rfl := some.inj (happ.dir.symm.trans hdir)
    exact hdata
  · exact fun hdata => ⟨file, happ.dir, hdata⟩

end Zmr.Options

/-- When the end of a file is accepted that was to be appended to, it holds what it held when its name was accepted,
followed by the data accepted since, if and only if no file was open then and it was empty, or it was open itself, or
some other file was and there are no data. -/
theorem append_keeps_iff (C : OConfig) (fs : FileSystem (List UInt8)) (events : List OInput) :
    Guarded (Zmr.Options.step C)
      (fun s e => EndsFile s e → ∀ n g file, s.1.named = some n → s.1.received = some g → n.Asks →
        n.fs.dir n.path = some file →
        ((Zmr.Options.step C s e).1.Appended n file g.data ↔ n.Appends file g.data))
      (OReceiver.init fs, .ret .ok) events := by
  refine guarded_of_inv (I := Zmr.Options.Good) (fun s e h _ => Zmr.Options.good_step h e) (fun s e h _ hends => ?_)
    (fun _ => Zmr.Options.inv_init fs) (guarded_true _ _)
  intro n g file hn hg hasks hdir
  exact Zmr.Options.appended_iff hends ((h hends.1).appending n g file hn hg hasks hdir)

def existing : FileSystem (List UInt8) :=
  ((FileSystem.empty.create [0x2f, 0x74, 0x6d, 0x70, 0x2f, 0x61]).write ⟨0, 0⟩ [1, 2]).1

def appendThree : List OInput :=
  [⟨headerOf .file 0x30000, 0⟩, ⟨dataOf [0x61, 0] 0x6b, 0⟩, ⟨headerOf .data 0, 0⟩, ⟨dataOf [3, 4, 5] 0x68, 0⟩]

def sampleOptions : OConfig := ⟨sampleConfig, false, .whole, fun _ => (0, 0)⟩

theorem append_truncates :
    let s := replay (Zmr.Options.step sampleOptions) (OReceiver.init existing, .ret .ok) appendThree
    EndsFile s ⟨headerOf .eof 3, 0⟩ ∧ ∃ n g, s.1.named = some n ∧ s.1.received = some g ∧ n.Asks ∧
      n.fs.dir n.path = some 0 ∧ n.fs.data 0 = [1, 2] ∧ g.data = [3, 4, 5] ∧
      (Zmr.Options.step sampleOptions s ⟨headerOf .eof 3, 0⟩).1.fs.data 0 = [3, 4, 5] ∧
      ¬ (Zmr.Options.step sampleOptions s ⟨headerOf .eof 3, 0⟩).1.Appended n 0 g.data := by
  intro s
  have hnamed : s.1.named = some ⟨[0x2f, 0x74, 0x6d, 0x70, 0x2f, 0x61], existing, none, 0, 3⟩ := rfl
  have hreceived : s.1.received = some ⟨[0x2f, 0x74, 0x6d, 0x70, 0x2f, 0x61], [3, 4, 5], true⟩ := by decide
  have hdata : (Zmr.Options.step sampleOptions s ⟨headerOf .eof 3, 0⟩).1.fs.data 0 = [3, 4, 5] := by decide
  have hdir : (Zmr.Options.step sampleOptions s ⟨headerOf .eof 3, 0⟩).1.fs.dir
      [0x2f, 0x74, 0x6d, 0x70, 0x2f, 0x61] = some 0 := by decide
  refine ⟨⟨by decide, .inl (by decide), rfl, by decide⟩, _, _, hnamed, hreceived, ⟨by decide, by decide⟩, by decide,
    by decide, rfl, hdata, ?_⟩
  rintro ⟨file, hfile, happended⟩
  obtain rfl := some.inj (hdir.symm.trans hfile)
  exact absurd happended (by decide)

end NuttxApps.Zmodem
