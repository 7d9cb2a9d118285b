import NuttxApps.Framework.Crc
import NuttxApps.Framework.CString
import NuttxApps.Zmodem.Deliver
import NuttxApps.Zmodem.Newline

/-!
# Transfer options

A `ZFILE` header carries a conversion option `f0` and a management option `f1`. The other actions of the receiver are
those of the receiver without options (`lift`). The calls of the file system succeed, except that `stat` finds no file
where there is none.
-/

namespace NuttxApps.Zmodem

open Files Replay

/-- The management options: `ZMNEWL` to `ZMCHNG`, 0, and all others. -/
inductive Management
  | unspecified
  | newl
  | crc
  | apnd
  | clob
  | new
  | diff
  | prot
  | chng
  | unknown
deriving DecidableEq

def management (f1 : UInt8) : Management :=
  match (f1 &&& 0x1f).toNat with
  | 0 => .unspecified
  | 1 => .newl
  | 2 => .crc
  | 3 => .apnd
  | 4 => .clob
  | 5 => .new
  | 6 => .diff
  | 7 => .prot
  | 8 => .chng
  | _ => .unknown

def sknoloc (f1 : UInt8) : Bool := f1 &&& 0x80 ≠ 0

def zcnl : UInt8 := 2

def zcresum : UInt8 := 3

/-- `CONFIG_SYSTEM_ZMODEM_TIMESTAMPS`, how a buffer is written, and what `sscanf` reads from the text behind a name. -/
structure OConfig extends RConfig where
  timestamps : Bool
  writer : Newline.Writer
  sscanf : List UInt8 → Nat × Nat

/-- An event, and the time of the last change that `stat` has for the file it names. -/
structure OInput extends RInput where
  mtime : Nat

variable (C : OConfig) (e : OInput)

def OInput.f0 : UInt8 := (e.position >>> 24).toUInt8

def OInput.f1 : UInt8 := (e.position >>> 16).toUInt8

/-- When the last name was accepted: its path, the files, the descriptor, and the options. -/
structure Named where
  path : List UInt8
  fs : FileSystem (List UInt8)
  outfd : Option Descriptor
  (f0 f1 : UInt8)

/-- The other fields of `struct zmr_state_s`, and the static variables of `zmr_parsefilename` and `zm_writefile`;
`named` is a history. -/
structure OReceiver extends Receiver where
  (f0 f1 : UInt8)
  append : Bool
  (filesize timestamp : Nat)
  (crc uniqno : UInt32)
  newline : Bool
  named : Option Named

def OReceiver.init (fs : FileSystem (List UInt8)) : OReceiver where
  toReceiver := Receiver.init fs
  f0 := 0
  f1 := 0
  append := false
  filesize := 0
  timestamp := 0
  crc := 0
  uniqno := 0
  newline := false
  named := none

/-- What an action returns, or that it does not return. -/
inductive Outcome
  | ret (ret : Ret)
  | never
deriving DecidableEq

abbrev OAction := OInput → OReceiver → OReceiver × Outcome

namespace Zmr.Options

def lift (action : RAction) : OAction := fun e x =>
  let (r, ret) := action e.toRInput x.toReceiver
  ({ x with toReceiver := r }, .ret ret)

def zfile : OAction := fun e x =>
  ({ x with nerrors := 0, sknoloc := sknoloc e.f1, f0 := e.f0, f1 := e.f1 }, .ret .ok)

variable (x : OReceiver) (path : List UInt8)

def stat : Option Nat := (x.fs.dir path).map fun file => (x.fs.data file).length

def filecrc : UInt32 :=
  match x.fs.dir path with
  | some file => ~~~ Crc.crc32part (x.fs.data file) 0xffffffff
  | none => 0

/-- The loop for `ZMCHNG`: the first candidate that does not exist, with its number. -/
def unique (dir : List UInt8 → Option Nat) (path : List UInt8) : Nat → UInt32 → Option (List UInt8 × UInt32)
  | 0, _ => none
  | n + 1, uniqno =>
    let uniqno := uniqno + 1
    let candidate := path ++ 0x5f :: CString.decimal uniqno.toInt32.toInt
    if (dir candidate).isSome then unique dir path n uniqno else some (candidate, uniqno)

inductive Refusal
  | einval
  | eexist
  | enoent
  | eperm

/-- How `zmr_parsefilename` ends; `found` is `exists`. -/
inductive Parsed
  | accepted (path : List UInt8) (found : Bool)
  | refused (errno : Refusal)
  | never

def manage : OReceiver × Parsed :=
  let size := stat x path
  let accepted := Parsed.accepted path size.isSome
  match management x.f1 with
  | .newl =>
    if size.any (x.filesize ≤ ·) ∧ (C.timestamps → x.timestamp ≤ e.mtime) then (x, .refused .eperm) else (x, accepted)
  | .crc => if size = some x.filesize ∧ x.crc = filecrc x path then (x, .refused .eperm) else (x, accepted)
  | .apnd => ({ x with append := true }, accepted)
  | .unspecified | .clob => (x, accepted)
  | .new =>
    if size.isSome ∧ C.timestamps ∧ x.timestamp ≤ e.mtime then (x, .refused .eperm) else (x, accepted)
  | .diff =>
    if size = some x.filesize ∧ (C.timestamps → x.timestamp = e.mtime) then (x, .refused .eperm) else (x, accepted)
  | .prot => if size.isSome then (x, .refused .eperm) else (x, accepted)
  | .chng =>
    if size.isSome then
      -- after all numbers the loop tries the same candidates again
      match unique x.fs.dir path UInt32.size x.uniqno with
      | some (candidate, uniqno) => ({ x with uniqno := uniqno }, .accepted candidate false)
      | none => (x, .never)
    else (x, accepted)
  | .unknown => (x, .refused .einval)

def parsefilename : OReceiver × Parsed :=
  let namptr := e.packet.string
  let path := C.pathname ++ 0x2f :: namptr
  if namptr.head? = some 0x2f then (x, .refused .einval)
  else if x.f0 = zcresum ∧ stat x path = some x.filesize then (x, .refused .eexist)
  else
    let x := if x.f0 = zcresum then { x with append := true } else x
    if (stat x path).isNone ∧ sknoloc x.f1 then (x, .refused .enoent) else manage C e x path

/-- The end of `zmr_parsefilename`: a file of the name is removed unless it is appended to. -/
def accept (found : Bool) : OReceiver :=
  { x with
    filename := some path
    fs := if found ∧ ¬ x.append then x.fs.unlink path else x.fs
    received := some ⟨path, [], x.outfd.isNone⟩
    named := some ⟨path, x.fs, x.outfd, x.f0, x.f1⟩ }

/-- The end of `zmr_openfile`: a transfer that is resumed starts at the position in the file. -/
def ready (fd : Descriptor) : OReceiver × Outcome :=
  let offset := if x.f0 = zcresum then fd.pos else 0
  ({ x with offset := offset, state := .readready, sent := x.sent ++ [.zrpos (UInt32.ofNat offset)] }, .ret .ok)

def skip : OReceiver × Outcome :=
  ({ x with state := .start, sent := x.sent ++ [.zskip] }, .ret .ok)

def openfile : OReceiver × Outcome :=
  match x.outfd, x.filename with
  | some fd, _ => ready x fd
  | none, none => skip x
  | none, some path =>
    ready { x with fs := (x.fs.creat path).1, outfd := some (x.fs.creat path).2 } (x.fs.creat path).2

/-- `zmr_zcrc`: the CRC is taken from the header with its type, which is 13. -/
def zcrc : OAction := fun e x => openfile { x with crc := (13 : UInt32) ||| e.position <<< 8 }

def proceed (found : Bool) : OReceiver × Outcome :=
  let text := (e.packet.data ++ e.packet.behind).drop (e.packet.string.length + 1)
  let x := { accept x path found with filesize := (C.sscanf text).1, timestamp := (C.sscanf text).2 }
  if management x.f1 = .crc then ({ x with state := .crcwait, sent := x.sent ++ [.zcrc] }, .ret .ok)
  else openfile { x with state := .readready }

def filename (C : OConfig) : OAction := fun e x =>
  if e.packet.crkok then
    match parsefilename C e { x with filename := none } with
    | (x, .accepted path found) => proceed C e x path found
    | (x, .refused _) => skip x
    | (x, .never) => (x, .never)
  else ({ x with state := .start, sent := x.sent ++ [.znak] }, .ret .ok)

def stored (r : Receiver) (fd : Descriptor) (data text : List UInt8) : Receiver :=
  { r with
    fs := (r.fs.write fd text).1
    outfd := some (r.fs.write fd text).2
    offset := r.offset + data.length
    received := r.received.map fun g => { g with data := g.data ++ data } }

/-- `zmr_filedata`, which converts newlines for `ZCNL`. -/
def filedata (C : OConfig) : OAction := fun e x =>
  if x.f0 = zcnl ∧ e.packet.crkok then
    match x.outfd with
    | none => ({ x with state := .finish }, .ret .ebadf)
    | some fd =>
      let (_, newline, text) := Newline.writefile C.writer true x.newline e.packet.data
      let r := written e.packet.pkttype (stored x.toReceiver fd e.packet.data text)
      ({ x with toReceiver := r, newline := newline }, .ret .ok)
  else lift (Zmr.filedata C.toRConfig) e x

/-- The entries of `g_zmr_evtable` whose actions read or write the options. -/
def optioned : RState → EventType → Option (RState × OAction)
  | .start, .file | .reading, .file | .finish, .file => some (.fileinfo, zfile)
  | .fileinfo, .datarcvd => some (.readready, filename C)
  | .crcwait, .crc => some (.readready, zcrc)
  | .reading, .datarcvd => some (.reading, filedata C)
  | _, _ => none

def entry (C : OConfig) (state : RState) (type : EventType) : RState × OAction :=
  match optioned C state type with
  | some entry => entry
  | none =>
    let entry := (evtable C.toRConfig state).find type
    (entry.1, lift entry.2)

def event (e : OInput) : OReceiver × Outcome :=
  (entry C x.state e.type).2 e { x with state := (entry C x.state e.type).1 }

def step (s : OReceiver × Outcome) (e : OInput) : OReceiver × Outcome :=
  if s.2 = .ret .ok then event C s.1 e else s

/-- What the other actions keep: the files, the descriptor unless it is closed, the history and the flag. -/
structure Keeps (r r' : Receiver) : Prop where
  fs : r'.fs = r.fs
  outfd : r'.outfd = r.outfd ∨ r'.outfd = none
  received : r'.received = r.received
  sknoloc : r'.sknoloc = r.sknoloc

def Calm (action : RAction) : Prop :=
  ∀ e r, Keeps r (action e r).1 ∧ ((action e r).1.state = r.state ∨ (action e r).1.state = .start)

variable {action : RAction}

theorem calm_of_eq
    (h : ∀ e r, ∃ ntimeouts sent, (action e r).1 = { r with ntimeouts := ntimeouts, sent := sent }) : Calm action := by
  intro e r
  obtain ⟨ntimeouts, sent, heq⟩ := h e r
  rw [heq]
  exact ⟨⟨rfl, .inl rfl, rfl, rfl⟩, .inl rfl⟩

theorem calm_freecnt : Calm freecnt := calm_of_eq fun _ _ => ⟨_, _, rfl⟩

theorem calm_nakcrc : Calm nakcrc := calm_of_eq fun _ _ => ⟨_, _, rfl⟩

theorem calm_badrpos : Calm badrpos := calm_of_eq fun _ _ => ⟨_, _, rfl⟩

theorem calm_finto : Calm finto := calm_of_eq fun _ _ => ⟨_, _, rfl⟩

theorem calm_oo : Calm oo := calm_of_eq fun _ _ => ⟨_, _, rfl⟩

theorem calm_zrinit : Calm zrinit := fun _ _ => ⟨⟨rfl, .inl rfl, rfl, rfl⟩, .inr rfl⟩

theorem calm_startto : Calm startto := by
  intro e r
  rw [startto]
  split
  · exact ⟨⟨rfl, .inl rfl, rfl, rfl⟩, .inr rfl⟩
  · exact ⟨⟨rfl, .inl rfl, rfl, rfl⟩, .inl rfl⟩

theorem calm_rcvto : Calm rcvto := by
  intro e r
  rw [rcvto]
  split
  · exact ⟨⟨rfl, .inl rfl, rfl, rfl⟩, .inl rfl⟩
  · exact ⟨⟨rfl, .inl rfl, rfl, rfl⟩, .inr rfl⟩

theorem calm_fileto : Calm fileto := by
  intro e r
  rw [fileto]
  split
  · exact ⟨⟨rfl, .inl rfl, rfl, rfl⟩, .inr rfl⟩
  · split <;> exact ⟨⟨rfl, .inl rfl, rfl, rfl⟩, .inl rfl⟩

variable {state next : RState} (C : RConfig)

theorem calm_zsrintdata : Calm (zsrintdata C) := by
  intro e r
  rw [zsrintdata]
  split <;> exact ⟨⟨rfl, .inl rfl, rfl, rfl⟩, .inl rfl⟩

theorem calm_zdata : Calm zdata := by
  intro e r
  rw [zdata]
  split <;> exact ⟨⟨rfl, .inl rfl, rfl, rfl⟩, .inl rfl⟩

theorem calm_zfin : Calm zfin := fun _ _ => ⟨⟨rfl, .inr rfl, rfl, rfl⟩, .inl rfl⟩

variable (e : RInput) (r : Receiver)

theorem keeps_zeof : Keeps r (zeof e r).1 ∧ ((zeof e r).1.state = .readready ∨ (zeof e r).1.state = .start) := by
  rw [zeof]
  split
  · exact ⟨⟨rfl, .inl rfl, rfl, rfl⟩, .inl rfl⟩
  · exact ⟨⟨rfl, .inr rfl, rfl, rfl⟩, .inr rfl⟩

theorem filedata_cases :
    (∃ fd, r.outfd = some fd ∧
        (Zmr.filedata C e r).1 = written e.packet.pkttype (stored r fd e.packet.data e.packet.data)) ∨
      Keeps r (Zmr.filedata C e r).1 ∧ (Zmr.filedata C e r).1.state ∈ [r.state, .readready, .finish] := by
  rw [Zmr.filedata]
  split
  · cases hfd : r.outfd with
    | none => exact .inr ⟨⟨rfl, .inr rfl, rfl, rfl⟩, by simp⟩
    | some fd => exact .inl ⟨fd, rfl, rfl⟩
  · rw [badcrc]
    split
    · exact .inr ⟨⟨rfl, .inl rfl, rfl, rfl⟩, List.mem_cons_self⟩
    · exact .inr ⟨⟨rfl, .inl rfl, rfl, rfl⟩, List.mem_cons_of_mem _ List.mem_cons_self⟩

structure Settled (state : RState) (s : Receiver × Ret) : Prop where
  crcwait : s.1.state = .crcwait → state = .crcwait
  expects : s.2 = .ok → s.1.state = .readready ∨ s.1.state = .reading → state = .readready ∨ state = .reading

def Leads (state : RState) (entry : RState × RAction) : Prop :=
  ∀ e r, r.state = entry.1 → Keeps r (entry.2 e r).1 ∧ Settled state (entry.2 e r)

def admits (state next : RState) : Bool :=
  match next with
  | .crcwait => state = .crcwait
  | .readready | .reading => state = .readready ∨ state = .reading
  | _ => true

theorem Calm.leads (h : Calm action) (hnext : admits state next = true) : Leads state (next, action) := by
  intro e r hr
  obtain ⟨hkeeps, hstate⟩ := h e r
  refine ⟨hkeeps, fun hcrc => ?_, fun _ hexp => ?_⟩
  · rcases hstate with hstate | hstate
    · rw [show next = .crcwait from hr.symm.trans (hstate.symm.trans hcrc)] at hnext
      simpa [admits] using hnext
    · rw [hstate] at hcrc
      cases hcrc
  · rcases hstate with hstate | hstate
    · rw [hstate, hr] at hexp
      rcases hexp with rfl | rfl <;> simpa [admits] using hnext
    · rw [hstate] at hexp
      rcases hexp with hexp | hexp <;> cases hexp

theorem Calm.leads_of_ret (h : Calm action) (hnext : next ≠ .crcwait)
    (hret : ∀ e r, (action e r).2 ≠ .ok) : Leads state (next, action) := by
  intro e r hr
  obtain ⟨hkeeps, hstate⟩ := h e r
  refine ⟨hkeeps, fun hcrc => ?_, fun hok => absurd hok (hret e r)⟩
  rcases hstate with hstate | hstate
  · exact absurd (hr.symm.trans (hstate.symm.trans hcrc)) hnext
  · rw [hstate] at hcrc
    cases hcrc

theorem leads_zeof {state : RState} (h : state = .readready ∨ state = .reading) : Leads state (.start, zeof) := by
  intro e r _
  obtain ⟨hkeeps, hstate⟩ := keeps_zeof e r
  refine ⟨hkeeps, fun hcrc => ?_, fun _ _ => h⟩
  rcases hstate with hstate | hstate <;> rw [hstate] at hcrc <;> cases hcrc

theorem leads_find {C : OConfig} {state : RState} {type : EventType} (h : optioned C state type = none) :
    Leads state ((evtable C.toRConfig state).find type) := by
  -- an entry whose action reads the options is not the one that is found
  have hnot {entry : RState × RAction} {other : EventType} (hsome : (optioned C state other).isSome)
      (htype : other = type) : Leads state entry := by
    rw [htype, h] at hsome
    cases hsome
  have hsame {action : RAction} {next : RState} (heq : ∀ e r, (action e r).1 = r) (hnext : admits state next = true) :
      Leads state (next, action) := Calm.leads (calm_of_eq fun e r => ⟨_, _, heq e r⟩) hnext
  refine Table.find_of ?_ (by cases state <;> exact hsame (fun _ _ => rfl) rfl)
  cases state <;>
    simp only [evtable, List.forall_mem_cons, List.not_mem_nil, false_imp_iff, implies_true, and_true]
  case start =>
    exact ⟨fun _ => hsame (fun _ _ => rfl) rfl, hnot rfl, fun _ => calm_zrinit.leads rfl, fun _ => calm_zfin.leads rfl,
      fun _ => calm_zrinit.leads rfl, fun _ => calm_freecnt.leads rfl, fun _ => hsame (fun _ _ => rfl) rfl,
      fun _ => hsame (fun _ _ => rfl) rfl, fun _ => calm_startto.leads rfl⟩
  case initwait =>
    exact ⟨fun _ => (calm_zsrintdata _).leads rfl, fun _ => calm_rcvto.leads rfl⟩
  case fileinfo =>
    exact ⟨hnot rfl, fun _ => calm_rcvto.leads rfl⟩
  case crcwait =>
    exact ⟨hnot rfl, fun _ => calm_nakcrc.leads rfl, fun _ => calm_zrinit.leads rfl, fun _ => calm_zfin.leads rfl,
      fun _ => calm_fileto.leads rfl⟩
  case readready =>
    exact ⟨fun _ => calm_zdata.leads rfl, fun _ => calm_badrpos.leads rfl, fun _ => leads_zeof (.inl rfl),
      fun _ => calm_zrinit.leads rfl, fun _ => calm_badrpos.leads rfl, fun _ => calm_zfin.leads rfl,
      fun _ => calm_fileto.leads rfl⟩
  case reading =>
    exact ⟨fun _ => calm_zrinit.leads rfl, hnot rfl, fun _ => calm_badrpos.leads rfl, fun _ => calm_zfin.leads rfl,
      fun _ => calm_zdata.leads rfl, fun _ => leads_zeof (.inr rfl), hnot rfl, fun _ => calm_fileto.leads rfl⟩
  case finish =>
    exact ⟨fun _ => calm_zrinit.leads rfl, hnot rfl, fun _ => calm_zfin.leads rfl, fun _ => calm_zfin.leads rfl,
      fun _ => calm_finto.leads_of_ret (by decide) fun _ _ => by simp [finto],
      fun _ => calm_oo.leads_of_ret (by decide) fun _ _ => by simp [oo]⟩
  case command | message =>
    exact ⟨fun _ => hsame (fun _ _ => rfl) rfl, fun _ => hsame (fun _ _ => rfl) rfl⟩
  case done => exact fun _ => hsame (fun _ _ => rfl) rfl

end Zmr.Options

end NuttxApps.Zmodem
