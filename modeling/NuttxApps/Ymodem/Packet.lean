import NuttxApps.Framework.Crc
import NuttxApps.Settings.ValueText

/-!
# The packets of YMODEM (`system/ymodem`)

A packet is a type, a sequence number and its complement, 128, 1024 or a configured number of bytes, and their CRC-16.
`ymodem_recv_packet` returns the sequence number and the data, or an error; a packet which arrives as it was sent is
received (`recvPacket_packet`).
-/

namespace NuttxApps.Ymodem

open List

open Settings (digits)

/-- The errors that the code tells apart, and the others. -/
inductive Errno
  | again
  | canceled
  | badmsg
  | ilseq
  | inval
  | timedout
  | other (code : Nat)
deriving DecidableEq

abbrev Event := Except Errno UInt8

def soh : UInt8 := 0x01
def stx : UInt8 := 0x02
def stc : UInt8 := 0x03
def eot : UInt8 := 0x04
def ack : UInt8 := 0x06
def nak : UInt8 := 0x15
def can : UInt8 := 0x18
def crc : UInt8 := 0x43

/-- The size of the packets that `-k` asks for (0 without it), the machine, and what does not depend on the protocol. -/
structure Env where
  customSize : Nat
  target : Libc.Target
  /-- What the sender's buffer holds behind the text of its `n`-th name packet. -/
  stale : Nat → List UInt8
  /-- What the receiver's buffer holds behind the data of the `n`-th packet. -/
  behind : Nat → List UInt8
  crc16xmodem : List UInt8 → UInt16

def Env.plain : Env := ⟨0, .bits32, fun _ => [], fun _ => [], (Crc.crc16xmodempart · 0)⟩

def pathMax : Nat := 256

def packetSize (env : Env) (type : UInt8) : Option Nat :=
  if type = soh then some 128 else if type = stx then some 1024 else if type = stc then some env.customSize else none

def crcBytes (env : Env) (data : List UInt8) : List UInt8 :=
  [.ofNat ((env.crc16xmodem data).toNat / 256), .ofNat ((env.crc16xmodem data).toNat % 256)]

def packet (env : Env) (type seq : UInt8) (data : List UInt8) : List UInt8 :=
  type :: seq :: (255 - seq) :: (data ++ crcBytes env data)

/-- `ymodem_recv_buffer`: `n` bytes or the first error; `none` while it waits for more. -/
def recvBuffer : Nat → List Event → Option (Except Errno (List UInt8) × List Event)
  | 0, es => some (.ok [], es)
  | _ + 1, [] => none
  | _ + 1, .error e :: es => some (.error e, es)
  | n + 1, .ok b :: es =>
    match recvBuffer n es with
    | none => none
    | some (.error e, es) => some (.error e, es)
    | some (.ok bs, es) => some (.ok (b :: bs), es)

/-- The checks of what follows the type: the sequence number and the data of the packet. -/
def checkPacket (env : Env) (size : Nat) (bs : List UInt8) : Except Errno (UInt8 × List UInt8) :=
  let data := (bs.drop 2).take size
  if (bs.getD 0 0).toNat + (bs.getD 1 0).toNat ≠ 0xff then .error .ilseq
  else if (env.crc16xmodem data).toNat ≠ (bs.getD (2 + size) 0).toNat * 256 + (bs.getD (2 + size + 1) 0).toNat then
    .error .badmsg
  else .ok (bs.getD 0 0, data)

/-- The case `CAN` of `ymodem_recv_packet`, which falls through to the default. -/
def recvCan : List Event → Option (Except Errno (UInt8 × List UInt8) × List Event)
  | [] => none
  | .error e :: es => some (.error e, es)
  | .ok b :: es => some (.error (if b = can then .canceled else .badmsg), es)

def recvPacket (env : Env) : List Event → Option (Except Errno (UInt8 × List UInt8) × List Event)
  | [] => none
  | .error e :: es => some (.error e, es)
  | .ok type :: es =>
    if type = eot then some (.error .again, es)
    else if type = can then recvCan es
    else
      match packetSize env type with
      | none => some (.error .badmsg, es)
      | some size =>
        match recvBuffer (2 + size + 2) es with
        | none => none
        | some (.error e, es) => some (.error e, es)
        | some (.ok bs, es) => some (checkPacket env size bs, es)

theorem recvBuffer_map (bs : List UInt8) (es : List Event) :
    recvBuffer bs.length (bs.map .ok ++ es) = some (.ok bs, es) := by
  induction bs with
  | nil => rfl
  | cons b bs ih =>
    rw [map_cons, cons_append, length_cons, recvBuffer, ih]

variable (seq : UInt8)

theorem toNat_add_complement : seq.toNat + (255 - seq).toNat = 0xff := by
  have hlt := seq.toNat_lt
  show seq.toNat + (2 ^ 8 - seq.toNat + 255) % 2 ^ 8 = 0xff
  omega

theorem checkPacket_packet (env : Env) (data : List UInt8) :
    checkPacket env data.length (seq :: (255 - seq) :: (data ++ crcBytes env data)) = .ok (seq, data) := by
  obtain ⟨hi, lo, hbytes, hcrc⟩ : ∃ hi lo : UInt8, crcBytes env data = [hi, lo] ∧
      (env.crc16xmodem data).toNat = hi.toNat * 256 + lo.toNat := by
    refine ⟨_, _, rfl, ?_⟩
    have hlt := (env.crc16xmodem data).toNat_lt
    rw [UInt8.toNat_ofNat', UInt8.toNat_ofNat']
    omega
  rw [hbytes]
  have hhi : (seq :: (255 - seq) :: (data ++ [hi, lo])).getD (2 + data.length) 0 = hi := by
    simp [add_comm 2]
  have hlo : (seq :: (255 - seq) :: (data ++ [hi, lo])).getD (2 + data.length + 1) 0 = lo := by
    simp [add_comm 2, add_right_comm _ 2]
  have hdata : ((seq :: (255 - seq) :: (data ++ [hi, lo])).drop 2).take data.length = data := by simp
  simp only [checkPacket, hhi, hlo, hdata, getD_cons_zero, getD_cons_succ]
  rw [if_neg (not_not_intro (toNat_add_complement seq)), if_neg (not_not_intro hcrc)]

variable {env : Env} {type : UInt8}

theorem packetSize_ne {size : Nat} (h : packetSize env type = some size) : type ≠ eot ∧ type ≠ can := by
  constructor <;> rintro rfl <;> exact nomatch h

theorem recvPacket_packet {data : List UInt8}
    (h : packetSize env type = some data.length) (seq : UInt8) (es : List Event) :
    recvPacket env ((packet env type seq data).map .ok ++ es) = some (.ok (seq, data), es) := by
  obtain ⟨heot, hcan⟩ := packetSize_ne h
  have hlength : 2 + data.length + 2 = (seq :: (255 - seq) :: (data ++ crcBytes env data)).length := by
    simp [crcBytes]
    omega
  simp only [packet, map_cons, cons_append, recvPacket, if_neg heot, if_neg hcan, h]
  rw [← cons_append, ← cons_append, ← map_cons, ← map_cons, hlength, recvBuffer_map]
  simp only [checkPacket_packet]

/-- `ymodem_send_buffer`, from the results of `write`: what it returns and what is on the line; `none` while it waits.
Each call is given the whole buffer, whatever was written before. -/
def sendBuffer (buf : List UInt8) : Nat → List (Except Errno Nat) → Option (Except Errno Unit × List UInt8)
  | i, [] => if buf.length ≤ i then some (.ok (), []) else none
  | i, r :: rs =>
    if buf.length ≤ i then some (.ok (), [])
    else
      match r with
      | .error e => some (.error e, [])
      | .ok n => (sendBuffer buf (i + n) rs).map fun s => (s.1, buf.take n ++ s.2)

/-- No write takes more than is left, and the bytes that are due are those which the buffer starts with. -/
def InPlace (buf : List UInt8) : Nat → List Nat → Prop
  | _, [] => True
  | i, n :: ns => i < buf.length → i + n ≤ buf.length ∧ buf.take n = (buf.drop i).take n ∧ InPlace buf (i + n) ns

theorem sendBuffer_spec {buf : List UInt8} {ns : List Nat} (hns : ∀ n ∈ ns, 0 < n ∧ n ≤ buf.length) {i : Nat}
    (henough : buf.length ≤ i + ns.length) :
    ∃ line, sendBuffer buf i (ns.map .ok) = some (.ok (), line) ∧ (line = buf.drop i ↔ InPlace buf i ns) := by
  induction ns generalizing i with
  | nil => exact ⟨[], if_pos henough, iff_of_true (drop_of_length_le henough).symm trivial⟩
  | cons n ns ih =>
    obtain ⟨⟨hpos, hle⟩, hns⟩ := forall_mem_cons.mp hns
    rw [length_cons] at henough
    rw [map_cons, sendBuffer, InPlace]
    by_cases hdone : buf.length ≤ i
    · exact ⟨[], if_pos hdone, iff_of_true (drop_of_length_le hdone).symm fun hlt => absurd hdone (Nat.not_le.mpr hlt)⟩
    obtain ⟨line, hline, hiff⟩ := ih hns (show buf.length ≤ i + n + ns.length by omega)
    rw [if_neg hdone, hline, ← hiff]
    refine ⟨buf.take n ++ line, rfl, fun h _ => ?_, fun h => ?_⟩
    · have hlength := congrArg length h
      rw [length_append, length_take_of_le hle, length_drop] at hlength
      rw [← take_append_drop n (buf.drop i), drop_drop] at h
      obtain ⟨htake, hdrop⟩ := append_inj h (by rw [length_take_of_le hle, length_take, length_drop]; omega)
      exact ⟨by omega, htake, hdrop⟩
    · obtain ⟨-, htake, hdrop⟩ := h (Nat.lt_of_not_le hdone)
      rw [htake, hdrop, ← drop_drop, take_append_drop]

/-- For all results of `write`, the line holds the packet, and it is received, exactly if every write is in place. -/
theorem short_writes_iff {data : List UInt8} (h : packetSize env type = some data.length)
    (seq : UInt8) {ns : List Nat} (hns : ∀ n ∈ ns, 0 < n ∧ n ≤ (packet env type seq data).length)
    (henough : (packet env type seq data).length ≤ ns.length) :
    (∃ line, sendBuffer (packet env type seq data) 0 (ns.map .ok) = some (.ok (), line) ∧
      line = packet env type seq data ∧ ∀ es, recvPacket env (line.map .ok ++ es) = some (.ok (seq, data), es)) ↔
        InPlace (packet env type seq data) 0 ns := by
  obtain ⟨line, hline, hiff⟩ := sendBuffer_spec hns (by rwa [zero_add])
  rw [← hiff, hline, drop_zero]
  constructor
  · rintro ⟨_, ⟨⟩, hpacket, -⟩
    exact hpacket
  · rintro rfl
    exact ⟨_, rfl, rfl, recvPacket_packet h seq⟩

/-- A packet whose CRC ends with the byte for its type is in place behind a write that leaves its last byte. -/
theorem short_writes_whole :
    let env : Env := { Env.plain with crc16xmodem := fun _ => 1 }
    ∃ line, sendBuffer (packet env soh 0 (replicate 128 0)) 0 ((132 :: replicate 132 1).map .ok) = some (.ok (), line) ∧
      line = packet env soh 0 (replicate 128 0) := by
  intro env
  have hsize : packetSize env soh = some (replicate 128 (0 : UInt8)).length := rfl
  have hlength : (packet env soh 0 (replicate 128 0)).length = 133 := by decide +kernel
  have hns : ∀ n ∈ 132 :: replicate 132 1, 0 < n ∧ n ≤ (packet env soh 0 (replicate 128 0)).length := by
    rw [hlength, forall_mem_cons]
    exact ⟨by decide, fun n hn => by rw [eq_of_mem_replicate hn]; decide⟩
  have hplace : InPlace (packet env soh 0 (replicate 128 0)) 0 (132 :: replicate 132 1) :=
    fun _ => ⟨by omega, rfl, fun _ => ⟨by omega, by decide +kernel, fun h => by omega⟩⟩
  obtain ⟨line, hline, hpacket, -⟩ :=
    (short_writes_iff hsize 0 hns (by rw [hlength, length_cons, length_replicate])).mpr hplace
  exact ⟨line, hline, hpacket⟩

/-- The first write takes one byte, and the type is sent again. -/
theorem short_write_repeats :
    (sendBuffer (packet .plain soh 0 (replicate 128 0)) 0 [.ok 1, .ok 132]).map
      (fun s => (s.1.isOk, decide (s.2 = packet .plain soh 0 (replicate 128 0)))) = some (true, false) := by
  decide +kernel

end NuttxApps.Ymodem
