import NuttxApps.Ymodem.Recv

/-!
# The sender (`ymodem_send_file`) with the handler of `sb`

The sender waits for a reply at six places and before the first packet (`Phase`). `sendReact` is what one reply leads
to, with the packets that are sent.
-/

namespace NuttxApps.Ymodem

structure File where
  (name contents : List UInt8)
deriving DecidableEq

inductive Phase
  | handshake (retries : Nat)
  | nameAck
  | nameCrc
  | dataAck
  | eotAck
  | eotCrc
  | lastAck
  | done (ret : Option Errno)
deriving DecidableEq

structure Send where
  phase : Phase
  /-- The rest of `filelist`; `none` for a file that `stat` or `open` does not find. -/
  args : List (Option File)
  /-- What is left of the open file; `file_length` is the length of it. -/
  rest : List UInt8
  seq : UInt8
  /-- The bytes of the last packet. -/
  packet : List UInt8
  (names reads : Nat)

variable (env : Env)

def File.sent (f : File) : List UInt8 := f.contents.take (f.contents.length % env.target.size)

def nameData (n : Nat) (f : File) : List UInt8 :=
  (nameText (f.name.take (pathMax - 1)) (f.sent env).length ++ env.stale n ++ List.replicate 128 0).take 128

def namePacket (n : Nat) (f : File) : List UInt8 := packet env soh 0 (nameData env n f)

def lastPacket : List UInt8 := packet env soh 0 (List.replicate 128 0)

variable (rest : List UInt8)

def dataType : UInt8 :=
  if rest.length ≤ 128 then soh else if env.customSize ≠ 0 then stc else stx

def dataSize : Nat :=
  if rest.length ≤ 128 then 128 else if env.customSize ≠ 0 then env.customSize else 1024

def payload : List UInt8 :=
  rest.take (dataSize env rest) ++ List.replicate (dataSize env rest - rest.length) 0x1a

def recvCmd (cmd : UInt8) : Event → Option Errno
  | .error e => some e
  | .ok b => if b = nak then some .again else if b ≠ cmd then some .inval else none

section

variable (env : Env) (fault : Nat → Option Errno)

def Send.done (s : Send) (ret : Option Errno) : Send × List (List UInt8) := ({ s with phase := .done ret }, [])

section

variable (s : Send)

def sendLast : Send × List (List UInt8) :=
  ({ s with phase := .lastAck, packet := lastPacket env }, [lastPacket env])

def Send.named (f : File) (args : List (Option File)) : Send :=
  { s with
    phase := .nameAck, args := args, rest := f.sent env, seq := 0, packet := namePacket env s.names f,
    names := s.names + 1 }

def Send.packed : Send :=
  { s with
    phase := .dataAck, rest := s.rest.drop (dataSize env s.rest), seq := s.seq + 1,
    packet := Ymodem.packet env (dataType env s.rest) (s.seq + 1) (payload env s.rest), reads := s.reads + 1 }

def sendStart : Send × List (List UInt8) :=
  match s.args with
  | [] => sendLast env s
  | none :: args => sendLast env { s with args := args }
  | some f :: args => (s.named env f args, [(s.named env f args).packet])

/-- The label `send_packet`. The `n`-th call of `read_data` fails if `fault n` says so. -/
def sendPacket : Send × List (List UInt8) :=
  match s.rest, fault s.reads with
  | _ :: _, some e => s.done (some e)
  | _, _ => (s.packed env, [(s.packed env).packet])

def sendEot : Send × List (List UInt8) := ({ s with phase := .eotAck }, [[eot]])

/-- What follows a call of `ymodem_recv_cmd`: `NAK`, or a read that fails with `EAGAIN`, sends the packet again. -/
def await (cmd : UInt8) (e : Event) (next again : Send × List (List UInt8)) : Send × List (List UInt8) :=
  match recvCmd cmd e with
  | none => next
  | some .again => again
  | some err => s.done (some err)

end

def sendReact (retry : Int) (s : Send) (e : Event) : Send × List (List UInt8) :=
  match s.phase with
  | .handshake k =>
    if recvCmd crc e = none then sendStart env s
    else if (k : Int) + 1 < retry then ({ s with phase := .handshake (k + 1) }, [])
    else s.done (some .timedout)
  | .nameAck => await s ack e ({ s with phase := .nameCrc }, []) (s, [s.packet])
  | .nameCrc => await s crc e (sendPacket env fault s) ({ s with phase := .nameAck }, [s.packet])
  | .dataAck =>
    await s ack e (if s.rest ≠ [] then sendPacket env fault s else sendEot s) (s, [s.packet])
  | .eotAck => await s ack e ({ s with phase := .eotCrc }, []) (sendEot s)
  | .eotCrc => await s crc e (sendStart env s) (sendEot s)
  | .lastAck => await s ack e (s.done none) (s, [s.packet])
  | .done _ => (s, [])

variable (retry : Int) (args : List (Option File))

/-- The sender before the first reply; without a retry it does not wait for one. -/
def sendInit : Send :=
  { phase := if 0 < retry then .handshake 0 else .done (some .timedout)
    args, rest := [], seq := 0, packet := [], names := 0, reads := 0 }

end

section

variable {s : Send} {next again : Send × List (List UInt8)}

@[simp] theorem await_ack : await s ack (.ok ack) next again = next := rfl

@[simp] theorem await_crc : await s crc (.ok crc) next again = next := rfl

@[simp] theorem await_nak (cmd : UInt8) : await s cmd (.ok nak) next again = again := rfl

end

theorem sendPacket_eq (s : Send) : sendPacket env (fun _ => none) s = (s.packed env, [(s.packed env).packet]) := by
  rw [sendPacket]
  split
  · contradiction
  · rfl

variable {env : Env} {rest : List UInt8}

section

variable (env : Env) (rest : List UInt8)

theorem dataSize_pos : 0 < dataSize env rest := by
  rw [dataSize]
  split
  · decide
  · split
    · exact Nat.pos_of_ne_zero ‹_›
    · decide

theorem packetSize_dataType : packetSize env (dataType env rest) = some (dataSize env rest) := by
  rw [dataType, dataSize]
  split
  · rfl
  · split <;> rfl

theorem length_payload : (payload env rest).length = dataSize env rest := by
  simp [payload]
  omega

end

theorem length_nameData (env : Env) (n : Nat) (f : File) : (nameData env n f).length = 128 := by
  simp [nameData]
  omega

theorem File.sent_of_lt {f : File} (h : f.contents.length < env.target.size) : f.sent env = f.contents := by
  rw [File.sent, Nat.mod_eq_of_lt h, List.take_length]

end NuttxApps.Ymodem
