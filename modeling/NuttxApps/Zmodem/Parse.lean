import NuttxApps.Zmodem.Encode
import Mathlib.Algebra.GroupWithZero.Nat

/-!
# Parsing ZMODEM frames

A step of `zm_parse` (`step`) raises nothing or one output: an event for the session layer, which is a parameter
(`Session`), or a NAK. `pump` is `zm_parse` on one receive buffer after the other. Steps that raise nothing make a quiet
run (`run`), which does not depend on how the bytes were split (`pump_of_run`). Between two bytes a parser is in one of
the states of `Reachable`, whatever the actions of the transition tables do.
-/

namespace NuttxApps.Zmodem

open List

inductive IdleState
  | zpad
  | zdle
  | oo
deriving DecidableEq

inductive HeaderState
  | format
  | payload
  | lspayload
deriving DecidableEq

inductive DataState
  | read
  | crc
deriving DecidableEq

inductive PState
  | idle (sub : IdleState)
  | header (sub : HeaderState)
  | data (sub : DataState)
deriving DecidableEq

/-- The fields of `struct zm_state_s` that the parser uses, with the flags `ZM_FLAG_ESC`, `ZM_FLAG_OO` and
`ZM_FLAG_CRKOK`. -/
structure Parser where
  pstate : PState
  ncan : Nat
  hdrfmt : UInt8
  hdrndx : Nat
  hdrdata : Nat → UInt8
  pkttype : UInt8
  (ncrc pktlen : Nat)
  pktbuf : Nat → UInt8
  (esc oo crkok : Bool)

/-- The events `ZME_OO`, `ZME_DATARCVD`, `ZME_CANCEL` and those named by the type of a header, and the NAK of a bad
header. -/
inductive Output
  | header (type : UInt8)
  | datarcvd
  | oo
  | cancel
  | nak
deriving DecidableEq

inductive Result
  | ok
  | raise (out : Output)
  | error (code : Int)

def upto (n : Nat) (buf : Nat → UInt8) : List UInt8 := (List.range n).map buf

def store (buf : Nat → UInt8) (i : Nat) (ch : UInt8) : Nat → UInt8 := fun j => if j = i then ch else buf j

def isxdigit (ch : UInt8) : Bool :=
  0x30 ≤ ch && ch ≤ 0x39 || 0x41 ≤ ch && ch ≤ 0x46 || 0x61 ≤ ch && ch ≤ 0x66

def decnibble (ch : UInt8) : UInt8 :=
  if ch ≤ 0x39 then ch - 0x30 else if ch ≤ 0x46 then ch - 0x41 + 10 else ch - 0x61 + 10

variable (out : Output) (r : Parser × Int × Bool) (s : Parser)

section

variable (C : Crcs) (size : Nat)

/-- The case `'O'` of `zm_idle`, into which `ZDLE` without `ZPAD` falls. -/
def idleO : Parser × Result :=
  if s.oo then
    if s.pstate = .idle .oo then ({ s with oo := false, pstate := .idle .zpad }, .raise .oo)
    else ({ s with pstate := .idle .oo }, .ok)
  else ({ s with pstate := .idle .zpad }, .ok)

def idle (s : Parser) (ch : UInt8) : Parser × Result :=
  if ch = 0x2a then ({ s with pstate := .idle .zdle }, .ok)
  else if ch = 0x18 then
    if s.pstate = .idle .zdle then ({ s with oo := false, pstate := .header .format }, .ok)
    else idleO { s with pstate := .idle .zpad }
  else if ch = 0x4f then idleO s
  else ({ s with pstate := .idle .zpad }, .ok)

def nakhdr : Parser × Result := ({ s with pstate := .idle .zpad }, .raise .nak)

def hdrOk (s : Parser) : Bool :=
  if s.hdrfmt = 0x43 then C.crc32 (upto 9 s.hdrdata) 0xffffffff == 0xdebb20e3
  else C.crc16 (upto 7 s.hdrdata) 0 == 0

def hdrevent (s : Parser) : Parser × Result :=
  if hdrOk C s then ({ s with pstate := .idle .zpad }, .raise (.header (s.hdrdata 0))) else nakhdr s

def headerSwitch (sub : HeaderState) (s : Parser) (ch : UInt8) : Parser × Result :=
  match sub with
  | .format =>
    if ch = 0x42 ∨ ch = 0x41 ∨ ch = 0x43 then
      ({ s with hdrfmt := ch, pstate := .header .payload, hdrndx := 0 }, .ok)
    else nakhdr s
  | .payload =>
    if s.hdrfmt = 0x42 then
      if isxdigit ch then
        ({ s with hdrdata := store s.hdrdata s.hdrndx (decnibble ch <<< 4), pstate := .header .lspayload }, .ok)
      else nakhdr s
    else if s.hdrfmt = 0x41 ∨ s.hdrfmt = 0x43 then
      let s := { s with hdrdata := store s.hdrdata s.hdrndx ch }
      if s.hdrndx + 1 ≥ 9 ∨ s.hdrfmt = 0x41 ∧ s.hdrndx + 1 ≥ 7 then hdrevent C s
      else ({ s with pstate := .header .payload, hdrndx := s.hdrndx + 1 }, .ok)
    else (s, .ok)
  | .lspayload =>
    if s.hdrfmt = 0x42 ∧ isxdigit ch then
      let s := { s with hdrdata := store s.hdrdata s.hdrndx (s.hdrdata s.hdrndx ||| decnibble ch) }
      if s.hdrndx + 1 ≥ 7 then hdrevent C s
      else ({ s with pstate := .header .payload, hdrndx := s.hdrndx + 1 }, .ok)
    else nakhdr s

def header (sub : HeaderState) (s : Parser) (ch : UInt8) : Parser × Result :=
  if ch = 0x18 ∧ s.esc = false then ({ s with esc := true }, .ok)
  else if s.esc then headerSwitch C sub { s with esc := false } (unescape ch)
  else headerSwitch C sub s ch

/-- `zm_dataevent`, up to the event; the length then excludes the packet type and the CRC. -/
def dataevent (s : Parser) : Parser × Result :=
  if s.hdrfmt = 0x43 then
    ({ s with pstate := .idle .zpad, crkok := C.crc32 (upto s.pktlen s.pktbuf) 0xffffffff == 0xdebb20e3,
              pktlen := (s.pktlen + 2 ^ 16 - 5) % 2 ^ 16 }, .raise .datarcvd)
  else
    ({ s with pstate := .idle .zpad, crkok := C.crc16 (upto s.pktlen s.pktbuf) 0 == 0,
              pktlen := (s.pktlen + 2 ^ 16 - 3) % 2 ^ 16 }, .raise .datarcvd)

/-- The end of `zm_data`: a byte goes to the packet buffer. -/
def dataStore (s : Parser) (ch : UInt8) : Parser × Result :=
  let s := { s with pktbuf := store s.pktbuf s.pktlen ch, pktlen := (s.pktlen + 1) % 2 ^ 16 }
  if s.ncrc = 1 then dataevent C s
  else if s.ncrc > 1 then ({ s with ncrc := s.ncrc - 1 }, .ok)
  else (s, .ok)

def data (s : Parser) (ch : UInt8) : Parser × Result :=
  if ch = 0x18 ∧ s.esc = false then ({ s with esc := true }, .ok)
  else if s.pktlen ≥ size then (s, .error (-28))
  else if s.esc then
    -- `ZCRCE`, `ZCRCG`, `ZCRCQ` or `ZCRCW`
    if 0x68 ≤ ch ∧ ch ≤ 0x6b then
      dataStore C
        { s with pkttype := ch, pstate := .data .crc, ncrc := if s.hdrfmt = 0x43 then 5 else 3, esc := false } ch
    else dataStore C { s with esc := false } (unescape ch)
  else dataStore C s ch

def dispatch (s : Parser) (ch : UInt8) : Parser × Result :=
  match s.pstate with
  | .idle _ => idle s ch
  | .header sub => header C sub s ch
  | .data _ => data C size s ch

def step (s : Parser) (ch : UInt8) : Parser × Result :=
  let s := { s with ncan := if ch = 0x18 then (s.ncan + 1) % 2 ^ 8 else 0 }
  if ch = 0x18 ∧ s.ncan ≥ 5 then (s, .raise .cancel)
  else if ch = 0x11 ∨ ch = 0x13 then (s, .ok)
  else dispatch C size s ch

/-- What the session layer returns: the state, the return value, and whether the receive buffer is discarded. -/
abbrev Session := Output → Parser → Parser × Int × Bool

def afterEvent : Parser × Int × Bool :=
  match out with
  | .datarcvd => ({ r.1 with pktlen := 0, ncrc := 0 }, r.2)
  | .cancel => (r.1, r.2.1, true)
  | _ => r

variable (h : Session)

/-- `zm_parse`: the return value, the state, and the outputs with the states they were raised in. -/
def parse (s : Parser) : List UInt8 → Int × Parser × List (Output × Parser)
  | [] => (0, s, [])
  | ch :: rest =>
    match step C size s ch with
    | (s₁, .ok) => parse s₁ rest
    | (s₁, .error code) => (code, s₁, [])
    | (s₁, .raise out) =>
      let (s₂, ret, discard) := afterEvent out (h out s₁)
      if ret ≠ 0 then (ret, s₂, [(out, s₁)])
      else if discard then (0, s₂, [(out, s₁)])
      else
        let (r, s₃, log) := parse s₂ rest
        (r, s₃, (out, s₁) :: log)

/-- What `zm_parse` sees of the bytes that were read: `rcvlen` has 16 bits. -/
def received (buf : List UInt8) : List UInt8 := buf.take (buf.length % 2 ^ 16)

/-- `zm_parse` on one receive buffer after the other, until it returns a value that is not 0. -/
def pump (s : Parser) : List (List UInt8) → List (Output × Parser)
  | [] => []
  | buf :: bufs =>
    let (ret, s₁, log) := parse C size h s (received buf)
    if ret ≠ 0 then log else log ++ pump s₁ bufs

def run (s : Parser) : List UInt8 → Option Parser
  | [] => some s
  | ch :: rest =>
    match step C size s ch with
    | (s₁, .ok) => run s₁ rest
    | _ => none

end

section

variable {C : Crcs} {size : Nat} {s s₁ s₂ s' : Parser} {pre post bytes : List UInt8} {ch : UInt8} {out : Output}

theorem run_append (a b : List UInt8) (s : Parser) :
    run C size s (a ++ b) = (run C size s a).bind fun s₁ => run C size s₁ b := by
  induction a generalizing s with
  | nil => rfl
  | cons ch a ih =>
    rw [cons_append, run, run]
    split
    · exact ih _
    · rfl

theorem run_of_step (h : step C size s ch = (s₁, .ok)) : run C size s [ch] = some s₁ := by
  rw [run, h]
  rfl

theorem parse_of_run (h : Session) (hrun : run C size s pre = some s₁) (rest : List UInt8) :
    parse C size h s (pre ++ rest) = parse C size h s₁ rest := by
  induction pre generalizing s with
  | nil =>
    cases hrun
    rfl
  | cons ch pre ih =>
    rw [run] at hrun
    rw [cons_append, parse]
    split at hrun
    · rename_i hstep
      rw [hstep]
      exact ih hrun
    · cases hrun

theorem received_of_lt {buf : List UInt8} (h : buf.length < 2 ^ 16) : received buf = buf := by
  rw [received, Nat.mod_eq_of_lt h, take_length]

theorem pump_of_run (h : Session) (bufs : List (List UInt8)) (hshort : ∀ buf ∈ bufs, buf.length < 2 ^ 16)
    (hrun : run C size s bufs.flatten = some s') : pump C size h s bufs = [] := by
  induction bufs generalizing s with
  | nil => rfl
  | cons buf bufs ih =>
    rw [flatten_cons, run_append] at hrun
    obtain ⟨s₁, hbuf, hrest⟩ := Option.bind_eq_some_iff.mp hrun
    have hparse := parse_of_run h hbuf []
    rw [append_nil] at hparse
    obtain ⟨hbuf, hshort⟩ := forall_mem_cons.mp hshort
    rw [pump, received_of_lt hbuf, hparse]
    exact ih hshort hrest

theorem pump_of_raise (h : Session) (hrun : run C size s pre = some s₁)
    (hstep : step C size s₁ ch = (s₂, .raise out)) (bufs : List (List UInt8))
    (hshort : ∀ buf ∈ bufs, buf.length < 2 ^ 16) (hbufs : bufs.flatten = pre ++ ch :: post) :
    ∃ tail, pump C size h s bufs = (out, s₂) :: tail ∧
      (tail = [] ∨ ∃ rest, (∀ buf ∈ rest, buf.length < 2 ^ 16) ∧ (∀ b ∈ rest.flatten, b ∈ post) ∧
        tail = pump C size h (afterEvent out (h out s₂)).1 rest) := by
  induction bufs generalizing s pre with
  | nil => simp at hbufs
  | cons buf bufs ih =>
    obtain ⟨hlt, hshort⟩ := forall_mem_cons.mp hshort
    rw [flatten_cons, append_eq_append_iff] at hbufs
    rcases hbufs with ⟨pre', hpre, hbufs⟩ | ⟨rest, hbuf, hrest⟩
    · rw [hpre, run_append] at hrun
      obtain ⟨smid, hmid, hrun⟩ := Option.bind_eq_some_iff.mp hrun
      have hparse := parse_of_run h hmid []
      rw [append_nil] at hparse
      rw [pump, received_of_lt hlt, hparse]
      exact ih hrun hshort hbufs
    · rw [pump, received_of_lt hlt, hbuf, parse_of_run h hrun]
      cases rest with
      | nil =>
        exact ih (show run C size s₁ [] = some s₁ from rfl) hshort hrest.symm
      | cons c rest =>
        obtain ⟨rfl, hpost⟩ := cons_eq_cons.mp hrest
        have hin : ∀ b ∈ bufs.flatten, b ∈ post := fun b hb => hpost ▸ mem_append_right _ hb
        obtain ⟨s₃, ret, discard, hr⟩ : ∃ s₃ ret discard, afterEvent out (h out s₂) = (s₃, ret, discard) :=
          ⟨_, _, _, rfl⟩
        rw [parse, hstep]
        simp only [hr]
        by_cases hret : ret = 0
        · cases discard with
          | true => exact ⟨pump C size h s₃ bufs, by simp [hret], .inr ⟨bufs, hshort, hin, rfl⟩⟩
          | false =>
            have hlt' : rest.length < 2 ^ 16 := by
              rw [hbuf, length_append, length_cons] at hlt
              omega
            refine ⟨pump C size h s₃ (rest :: bufs), ?_,
              .inr ⟨rest :: bufs, forall_mem_cons.mpr ⟨hlt', hshort⟩, fun b hb => hpost ▸ hb, rfl⟩⟩
            by_cases hq : (parse C size h s₃ rest).1 = 0 <;> simp [hret, hq, pump, received_of_lt hlt']
        · exact ⟨[], by simp [hret], .inl rfl⟩

end

def initial : Parser where
  pstate := .idle .zpad
  ncan := 0
  hdrfmt := 0
  hdrndx := 0
  hdrdata := fun _ => 0
  pkttype := 0
  ncrc := 0
  pktlen := 0
  pktbuf := fun _ => 0
  esc := false
  oo := false
  crkok := false

def readstate : Parser := { s with pstate := .data .read, pktlen := 0, ncrc := 0 }

/-- An action that leaves the parser where it is; it can write to the packet buffer, and set or clear `ZM_FLAG_OO`. -/
def Keeps (s s' : Parser) : Prop := ∃ oo pktbuf, s' = { s with oo := oo, pktbuf := pktbuf }

/-- An action: it may also go back to `PSTATE_IDLE` or call `zm_readstate`. -/
def Acts (s s' : Parser) : Prop := Keeps s s' ∨ Keeps { s with pstate := .idle .zpad } s' ∨ Keeps (readstate s) s'

inductive Reachable (C : Crcs) (size : Nat) : Parser → Prop
  | init : Reachable C size initial
  | ok {s s' : Parser} {ch : UInt8} (h : Reachable C size s) (hstep : step C size s ch = (s', .ok)) :
    Reachable C size s'
  | error {s s' : Parser} {ch : UInt8} {code : Int} (h : Reachable C size s)
    (hstep : step C size s ch = (s', .error code)) : Reachable C size s'
  | event {s s₁ s₂ : Parser} {ch : UInt8} {out : Output} (h : Reachable C size s)
    (hstep : step C size s ch = (s₁, .raise out)) (hout : out ≠ .cancel) (hacts : Acts s₁ s₂) :
    Reachable C size (afterEvent out (s₂, 0, false)).1
  | cancel {s s₁ s₂ : Parser} {ch : UInt8} (h : Reachable C size s)
    (hstep : step C size s ch = (s₁, .raise .cancel)) (hkeeps : Keeps s₁ s₂) : Reachable C size s₂
  | timeout {s s' : Parser} (h : Reachable C size s) (hkeeps : Keeps s s') : Reachable C size s'

structure Begins (C : Crcs) (size : Nat) (d : Parser) : Prop where
  called : ∃ s s₁ ch out, Reachable C size s ∧ step C size s ch = (s₁, .raise out) ∧ out ≠ .cancel ∧
    Keeps (readstate s₁) d
  ncan : d.ncan = 0

variable {C : Crcs} {size : Nat} {s s' d : Parser} {bytes : List UInt8}

theorem Reachable.run (h : Reachable C size s) (hrun : Zmodem.run C size s bytes = some s') : Reachable C size s' := by
  induction bytes generalizing s with
  | nil =>
    cases hrun
    exact h
  | cons ch bytes ih =>
    rw [Zmodem.run] at hrun
    split at hrun
    · rename_i hstep
      exact ih (h.ok hstep) hrun
    · cases hrun

def Unescaped (s : Parser) : Prop := ∀ sub, s.pstate = .idle sub → s.esc = false

theorem unescaped_of_esc (h : s.esc = false) : Unescaped s := fun _ _ => h

structure Leaves (p : Parser × Result) : Prop where
  state : Unescaped p.1
  ended : ∀ out, p.2 = .raise out → out ≠ .cancel → p.1.esc = false

theorem leaves_of_esc {p : Parser × Result} (h : p.1.esc = false) : Leaves p :=
  ⟨unescaped_of_esc h, fun _ _ _ => h⟩

theorem esc_idle (s : Parser) (ch : UInt8) : (idle s ch).1.esc = s.esc := by
  simp only [idle, idleO]
  split_ifs <;> rfl

theorem esc_hdrevent (C : Crcs) (s : Parser) : (hdrevent C s).1.esc = s.esc := by
  simp only [hdrevent, nakhdr]
  split_ifs <;> rfl

theorem esc_headerSwitch (C : Crcs) (sub : HeaderState) (s : Parser) (ch : UInt8) :
    (headerSwitch C sub s ch).1.esc = s.esc := by
  cases sub <;> simp only [headerSwitch, nakhdr] <;> split_ifs <;> first | rfl | exact esc_hdrevent C _

theorem esc_dataStore (C : Crcs) (s : Parser) (ch : UInt8) : (dataStore C s ch).1.esc = s.esc := by
  simp only [dataStore, dataevent]
  split_ifs <;> rfl

theorem leaves_dispatch (C : Crcs) (size : Nat) (h : Unescaped s) (ch : UInt8) : Leaves (dispatch C size s ch) := by
  rw [dispatch]
  split
  · rename_i sub hsub
    exact leaves_of_esc ((esc_idle s ch).trans (h sub hsub))
  · rename_i sub hsub
    rw [header]
    split_ifs with hzdle hesc
    · exact ⟨fun _ hidle => (nomatch hsub.symm.trans hidle), nofun⟩
    · exact leaves_of_esc (esc_headerSwitch C sub _ _)
    · exact leaves_of_esc ((esc_headerSwitch C sub _ _).trans (Bool.eq_false_iff.mpr hesc))
  · rename_i sub hsub
    rw [data]
    split
    · exact ⟨fun _ hidle => (nomatch hsub.symm.trans hidle), nofun⟩
    · split
      · exact ⟨h, nofun⟩
      · by_cases hesc : s.esc
        · rw [if_pos hesc]
          split
          · exact leaves_of_esc (esc_dataStore C _ _)
          · exact leaves_of_esc (esc_dataStore C _ _)
        · rw [if_neg hesc]
          exact leaves_of_esc ((esc_dataStore C _ _).trans (Bool.eq_false_iff.mpr hesc))

theorem leaves_step {p : Parser × Result} {ch : UInt8} (h : Unescaped s) (hstep : step C size s ch = p) : Leaves p := by
  rw [← hstep, step]
  generalize (if ch = 0x18 then (s.ncan + 1) % 2 ^ 8 else 0) = ncan
  have hs : Unescaped { s with ncan := ncan } := h
  split
  · exact ⟨hs, fun out hraise hout => absurd (Result.raise.inj hraise).symm hout⟩
  · split
    · exact ⟨hs, nofun⟩
    · exact leaves_dispatch C size hs ch

theorem Keeps.esc (h : Keeps s s') : s'.esc = s.esc := by
  obtain ⟨oo, pktbuf, rfl⟩ := h
  rfl

theorem Keeps.unescaped (h : Keeps s s') (hs : Unescaped s) : Unescaped s' := by
  obtain ⟨oo, pktbuf, rfl⟩ := h
  exact hs

theorem Acts.esc (h : Acts s s') : s'.esc = s.esc := by
  rcases h with h | h | h <;> exact h.esc

theorem esc_afterEvent : (afterEvent out r).1.esc = r.1.esc := by
  cases out <;> rfl

theorem Reachable.unescaped (h : Reachable C size s) : Unescaped s := by
  induction h with
  | init => exact unescaped_of_esc rfl
  | ok _ hstep ih => exact (leaves_step ih hstep).state
  | error _ hstep ih => exact (leaves_step ih hstep).state
  | event _ hstep hout hacts ih =>
    exact unescaped_of_esc ((esc_afterEvent ..).trans (hacts.esc.trans ((leaves_step ih hstep).ended _ rfl hout)))
  | cancel _ hstep hkeeps ih => exact hkeeps.unescaped (leaves_step ih hstep).state
  | timeout _ hkeeps ih => exact hkeeps.unescaped ih

theorem Begins.esc (h : Begins C size d) : d.esc = false := by
  obtain ⟨⟨s, s₁, ch, out, hs, hstep, hout, hkeeps⟩, -⟩ := h
  exact hkeeps.esc.trans ((leaves_step hs.unescaped hstep).ended out rfl hout)

end NuttxApps.Zmodem
