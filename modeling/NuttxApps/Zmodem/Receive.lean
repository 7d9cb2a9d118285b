import NuttxApps.Framework.Files
import NuttxApps.Framework.Replay
import NuttxApps.Zmodem.Events

/-!
# Receiving files

The state machine of `zm_receive.c`. An action can change the state again; one that does not return `OK` ends the
reception. Transfers are binary and replace what exists; the calls of the file system succeed. What the sender has
announced and the receiver accepted is kept as a history (`Received`).
-/

namespace NuttxApps.Zmodem

open Files Replay

inductive RState
  | start
  | initwait
  | fileinfo
  | crcwait
  | readready
  | reading
  | finish
  | command
  | message
  | done
deriving DecidableEq

/-- The data packet in `pktbuf`: its type, whether its CRC is right, its bytes, and what is behind them. -/
structure Packet where
  crkok : Bool
  pkttype : UInt8
  (data behind : List UInt8)

def Packet.string (p : Packet) : List UInt8 := (p.data ++ p.behind).takeWhile (· ≠ 0)

/-- An event, with the position and `ZMSKNOLOC` of the header, and the packet that came last. -/
structure RInput where
  type : EventType
  position : UInt32
  sknoloc : Bool
  packet : Packet

inductive Reply
  | zrinit
  | zack (value : UInt32)
  | znak
  | zrpos (offset : UInt32)
  | zskip
  | zcrc
  | zfin
  | can
deriving DecidableEq

/-- The last name that was accepted: its path, the data since, and whether no file was open. -/
structure Received where
  (path data : List UInt8)
  closed : Bool
deriving DecidableEq

/-- `CONFIG_SYSTEM_ZMODEM_MAXERRORS`, `CONFIG_SYSTEM_ZMODEM_SERIALNO`, and the directory for the files. -/
structure RConfig where
  maxErrors : Nat
  serialno : UInt32
  pathname : List UInt8

/-- `struct zmr_state_s`, the file system and the headers sent; `outfd` is `none` for -1, and `received` is the
history. -/
structure Receiver where
  state : RState
  ntimeouts : Nat
  nerrors : UInt16
  sknoloc : Bool
  filename : Option (List UInt8)
  outfd : Option Descriptor
  offset : Nat
  fs : FileSystem (List UInt8)
  sent : List Reply
  received : Option Received

def Receiver.init (fs : FileSystem (List UInt8)) : Receiver where
  state := .start
  ntimeouts := 0
  nerrors := 0
  sknoloc := false
  filename := none
  outfd := none
  offset := 0
  fs := fs
  sent := []
  received := none

abbrev RAction := RInput → Receiver → Receiver × Ret

variable (C : RConfig) (r : Receiver)

def Receiver.sendhexhdr (h : Reply) : Receiver := { r with sent := r.sent ++ [h] }

namespace Zmr

def zrinit : RAction := fun _ r => ({ r with state := .start }.sendhexhdr .zrinit, .ok)

def zsinit : RAction := fun _ r => (r, .ok)

def startto : RAction := fun e r =>
  let r := { r with ntimeouts := r.ntimeouts + 1 }
  if r.ntimeouts < 4 then zrinit e r else (r, .etimedout)

def zsrintdata : RAction := fun e r =>
  if e.packet.crkok then (r.sendhexhdr (.zack C.serialno), .ok) else (r.sendhexhdr .znak, .ok)

def freecnt : RAction := fun _ r => (r.sendhexhdr (.zack 0xffffffff), .ok)

def nakcrc : RAction := fun _ r => (r.sendhexhdr .zcrc, .ok)

def zfile : RAction := fun e r => ({ r with nerrors := 0, sknoloc := e.sknoloc }, .ok)

def fileerror : Receiver × Ret := (r.sendhexhdr (.zrpos (UInt32.ofNat r.offset)), .ok)

def zdata : RAction := fun e r => if e.position.toNat ≠ r.offset then fileerror r else (r, .ok)

def badrpos : RAction := fun _ r => (r.sendhexhdr (.zrpos (UInt32.ofNat r.offset)), .ok)

/-- `zmr_parsefilename`: the path, unless the name is refused. -/
def parsefilename (namptr : List UInt8) : Option (List UInt8) :=
  if namptr.head? = some 0x2f then none
  else
    let path := C.pathname ++ 0x2f :: namptr
    if (r.fs.dir path).isNone ∧ r.sknoloc then none else some path

/-- The end of `zmr_parsefilename`: a file of the name that was accepted is removed. -/
def accept (path : List UInt8) : Receiver :=
  { r with
    filename := some path
    fs := if (r.fs.dir path).isSome then r.fs.unlink path else r.fs
    received := some ⟨path, [], r.outfd.isNone⟩ }

def ready : Receiver × Ret :=
  ({ r with offset := 0, state := .readready }.sendhexhdr (.zrpos 0), .ok)

def skip : Receiver × Ret := ({ r with state := .start }.sendhexhdr .zskip, .ok)

def openfile : Receiver × Ret :=
  match r.outfd, r.filename with
  | some _, _ => ready r
  | none, none => skip r
  | none, some path => ready { r with fs := (r.fs.creat path).1, outfd := some (r.fs.creat path).2 }

def zcrc : RAction := fun _ r => openfile r

def filename (C : RConfig) : RAction := fun e r =>
  if e.packet.crkok then
    match parsefilename C r e.packet.string with
    | none => skip { r with filename := none }
    | some path => openfile { accept r path with state := .readready }
  else ({ r with state := .start }.sendhexhdr .znak, .ok)

def badcrc : Receiver × Ret :=
  let r := { r with nerrors := r.nerrors + 1 }
  if C.maxErrors < r.nerrors.toNat then (r.sendhexhdr .can, .eio) else fileerror { r with state := .readready }

/-- The end of `zmr_filedata`: `ZCRCE` and `ZCRCW` end the data, `ZCRCQ` and `ZCRCW` ask for an answer. -/
def written (pkttype : UInt8) (r : Receiver) : Receiver :=
  let r := if pkttype = 0x68 ∨ pkttype = 0x6b then { r with state := .readready } else r
  if pkttype = 0x6a ∨ pkttype = 0x6b then r.sendhexhdr (.zack (UInt32.ofNat r.offset)) else r

/-- `zmr_filedata`; there is nothing to write to without an open file. -/
def filedata : RAction := fun e r =>
  if e.packet.crkok then
    match r.outfd with
    | none => ({ r with state := .finish }, .ebadf)
    | some fd =>
      (written e.packet.pkttype
        { r with
          fs := (r.fs.write fd e.packet.data).1
          outfd := some (r.fs.write fd e.packet.data).2
          offset := r.offset + e.packet.data.length
          received := r.received.map fun g => { g with data := g.data ++ e.packet.data } }, .ok)
  else badcrc C r

def rcvto : RAction := fun e r =>
  let r := { r with ntimeouts := r.ntimeouts + 1 }
  if 4 < r.ntimeouts then (r, .etimedout) else zrinit e r

def fileto : RAction := fun e r =>
  let r := { r with ntimeouts := r.ntimeouts + 1 }
  if 2 < r.ntimeouts then zrinit e { r with ntimeouts := 0 }
  else if r.state = .crcwait then nakcrc e r else badrpos e r

def zeof : RAction := fun e r =>
  if e.position.toNat ≠ r.offset then ({ r with state := .readready }, .ok) else zrinit e { r with outfd := none }

def cmddata : RAction := fun _ r => (r, .ok)

def filecleanup : Receiver := { r with outfd := none, filename := none }

def zfin : RAction := fun _ r => ((filecleanup r).sendhexhdr .zfin, .ok)

def finto : RAction := fun _ r => ({ r with ntimeouts := r.ntimeouts + 1 }, .etimedout)

def oo : RAction := fun _ r => (r, .xfrdone)

def message : RAction := fun _ r => (r, .ok)

def zstderr : RAction := fun _ r => (r, .ok)

def cmdto : RAction := fun _ r => (r, .etimedout)

def doneto : RAction := fun _ r => (r, .etimedout)

def error : RAction := fun _ r => (r, .ok)

def evtable : RState → Table RState RAction
  | .start =>
    ⟨[(.sinit, .initwait, zsinit), (.file, .fileinfo, zfile), (.rqinit, .start, zrinit), (.fin, .finish, zfin),
        (.nak, .start, zrinit), (.freecnt, .start, freecnt), (.command, .command, cmddata),
        (.stderr, .message, message), (.timeout, .start, startto)],
      (.start, error)⟩
  | .initwait => ⟨[(.datarcvd, .start, zsrintdata C), (.timeout, .initwait, rcvto)], (.initwait, error)⟩
  | .fileinfo => ⟨[(.datarcvd, .readready, filename C), (.timeout, .fileinfo, rcvto)], (.fileinfo, error)⟩
  | .crcwait =>
    ⟨[(.crc, .readready, zcrc), (.nak, .crcwait, nakcrc), (.rqinit, .start, zrinit), (.fin, .finish, zfin),
        (.timeout, .crcwait, fileto)],
      (.crcwait, error)⟩
  | .readready =>
    ⟨[(.data, .reading, zdata), (.nak, .readready, badrpos), (.eof, .start, zeof), (.rqinit, .start, zrinit),
        (.file, .readready, badrpos), (.fin, .finish, zfin), (.timeout, .readready, fileto)],
      (.readready, error)⟩
  | .reading =>
    ⟨[(.rqinit, .start, zrinit), (.file, .fileinfo, zfile), (.nak, .readready, badrpos), (.fin, .finish, zfin),
        (.data, .reading, zdata), (.eof, .start, zeof), (.datarcvd, .reading, filedata C),
        (.timeout, .reading, fileto)],
      (.reading, error)⟩
  | .finish =>
    ⟨[(.rqinit, .start, zrinit), (.file, .fileinfo, zfile), (.nak, .finish, zfin), (.fin, .finish, zfin),
        (.timeout, .reading, finto), (.oo, .reading, oo)],
      (.finish, error)⟩
  | .command => ⟨[(.datarcvd, .command, cmddata), (.timeout, .command, cmdto)], (.command, error)⟩
  | .message => ⟨[(.datarcvd, .message, zstderr), (.timeout, .message, cmdto)], (.message, error)⟩
  | .done => ⟨[(.timeout, .done, doneto)], (.done, error)⟩

def event (e : RInput) : Receiver × Ret :=
  let entry := (evtable C r.state).find e.type
  entry.2 e { r with state := entry.1 }

/-- One event of `zm_datapump`, which ends as soon as an action does not return `OK`. -/
def step (s : Receiver × Ret) (e : RInput) : Receiver × Ret :=
  if s.2 = .ok then event C s.1 e else s

end Zmr

end NuttxApps.Zmodem
