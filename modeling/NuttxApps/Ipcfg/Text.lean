import NuttxApps.Framework.Libc
import NuttxApps.Ipcfg.Binary

/-!
# IP configuration files, text

Lines `<variable>=<value>`, with a line for the device first. A stream that is written is the list of its pairs, printed
by `print`; the functions of `arpa/inet.h` are a parameter (`Inet`).
-/

namespace NuttxApps.Ipcfg

open Bytes CString Libc List

def isprint (c : UInt8) : Bool := 32 ≤ c && c ≤ 126

/-- `inet_ntop`, `inet_addr` and `inet_pton`. The texts fit the buffers they are printed to. -/
structure Inet where
  ntop4 : UInt32 → List UInt8
  ntop6 : In6Addr → List UInt8
  addr : List UInt8 → UInt32
  /-- What `inet_pton(AF_INET6, ..)` leaves in an address. -/
  pton6 : List UInt8 → In6Addr → In6Addr
  isprint_ntop4 : ∀ a, ∀ c ∈ ntop4 a, isprint c
  isprint_ntop6 : ∀ a, ∀ c ∈ ntop6 a, isprint c
  length_ntop4 : ∀ a, (ntop4 a).length < 16
  length_ntop6 : ∀ a, (ntop6 a).length < 46
  addr_ntop4 : ∀ a, addr (ntop4 a) = a
  pton6_ntop6 : ∀ a old, pton6 (ntop6 a) old = a

/-- A name of a network device; `DEVICE=<name>` is a line that fits `MAX_LINESIZE`. -/
structure Netdev where
  name : List UInt8
  newline_notMem : 10 ∉ name
  length_lt : name.length < 72

/-- `g_ipv4proto_name`, by `IPv4PROTO_NONE`, `_STATIC`, `_DHCP` and `_FALLBACK`. -/
def ipv4protoName : List (List UInt8) :=
  [chars "none".toList, chars "static".toList, chars "dhcp".toList, chars "fallback".toList]

/-- `g_ipv6proto_name`, by `IPv6PROTO_NONE`, `_STATIC`, `_AUTOCONF` and `_FALLBACK`. -/
def ipv6protoName : List (List UInt8) :=
  [chars "none".toList, chars "static".toList, chars "autoconf".toList, chars "fallback".toList]

def device : List UInt8 := chars "DEVICE".toList
def ipv4Proto : List UInt8 := chars "IPv4PROTO".toList
def ipv4Ipaddr : List UInt8 := chars "IPv4IPADDR".toList
def ipv4Netmask : List UInt8 := chars "IPv4NETMASK".toList
def ipv4Router : List UInt8 := chars "IPv4ROUTER".toList
def ipv4Dns : List UInt8 := chars "IPv4DNS".toList
def ipv6Proto : List UInt8 := chars "IPv6PROTO".toList
def ipv6Ipaddr : List UInt8 := chars "IPv6IPADDR".toList
def ipv6Netmask : List UInt8 := chars "IPv6NETMASK".toList
def ipv6Router : List UInt8 := chars "IPv6ROUTER".toList

def trim (line : List UInt8) : List UInt8 := (line.dropWhile isspace).takeWhile isprint

/-- The variable and the value of a line, unless it is blank, a comment or malformed. -/
def pair (line : List UInt8) : Option (List UInt8 × List UInt8) :=
  let line := trim (cstr line)
  if line = [] ∨ line.head? = some 35 then none
  else if 61 ∈ line then some (line.takeWhile (· ≠ 61), (line.dropWhile (· ≠ 61)).tail)
  else none

def protoOf (names : List (List UInt8)) (value : List UInt8) (proto : UInt32) : UInt32 :=
  (names.idxOf? value).elim proto UInt32.ofNat

variable (inet : Inet)

/-- The variable assignment of `ipcfg_read_text_ipv4`. -/
def assignIpv4 (s : Ipv4cfg × Bool) (p : List UInt8 × List UInt8) : Ipv4cfg × Bool :=
  if p.1 = device then s
  else if p.1 = ipv4Proto then ({ s.1 with proto := protoOf ipv4protoName p.2 s.1.proto }, true)
  else if p.1 = ipv4Ipaddr then ({ s.1 with ipaddr := inet.addr p.2 }, s.2)
  else if p.1 = ipv4Netmask then ({ s.1 with netmask := inet.addr p.2 }, s.2)
  else if p.1 = ipv4Router then ({ s.1 with router := inet.addr p.2 }, s.2)
  else if p.1 = ipv4Dns then ({ s.1 with dnsaddr := inet.addr p.2 }, s.2)
  else s

def assignIpv6 (s : Ipv6cfg × Bool) (p : List UInt8 × List UInt8) : Ipv6cfg × Bool :=
  if p.1 = device then s
  else if p.1 = ipv6Proto then ({ s.1 with proto := protoOf ipv6protoName p.2 s.1.proto }, true)
  else if p.1 = ipv6Ipaddr then ({ s.1 with ipaddr := inet.pton6 p.2 s.1.ipaddr }, s.2)
  else if p.1 = ipv6Netmask then ({ s.1 with netmask := inet.pton6 p.2 s.1.netmask }, s.2)
  else if p.1 = ipv6Router then ({ s.1 with router := inet.pton6 p.2 s.1.router }, s.2)
  else s

def readPairs (file : List UInt8) : List (List UInt8 × List UInt8) := (readLines 79 file).filterMap pair

variable (var : List UInt8) (netdev : Netdev) (file : Option (List UInt8))

def readTextIpv4 : Except Errno Ipv4cfg :=
  match file with
  | none => .error .enoent
  | some file =>
    let s := (readPairs file).foldl (assignIpv4 inet) (⟨0, 0, 0, 0, 0⟩, false)
    if s.2 then .ok s.1 else .error .enoent

def In6Addr.zero : In6Addr := ⟨0, 0, 0, 0⟩

def readTextIpv6 : Except Errno Ipv6cfg :=
  match file with
  | none => .error .enoent
  | some file =>
    let s := (readPairs file).foldl (assignIpv6 inet) (⟨0, .zero, .zero, .zero⟩, false)
    if s.2 then .ok s.1 else .error .enoent

/-- What `fprintf(stream, "%s=%s\n", variable, value)` leaves, for each pair. -/
def print (ps : List (List UInt8 × List UInt8)) : List UInt8 := ps.flatMap fun p => p.1 ++ 61 :: p.2 ++ [10]

def putIpv4addr (address : UInt32) : List (List UInt8 × List UInt8) :=
  if address ≠ 0 then [(var, inet.ntop4 address)] else []

def putIpv6addr (address : In6Addr) : List (List UInt8 × List UInt8) :=
  -- `ipcfg_check_ipv6addr`
  if address ≠ .zero then [(var, inet.ntop6 address)] else []

def ipv4Pairs (c : Ipv4cfg) : List (List UInt8 × List UInt8) :=
  (ipv4Proto, ipv4protoName.getD c.proto.toNat []) ::
    (putIpv4addr inet ipv4Ipaddr c.ipaddr ++ putIpv4addr inet ipv4Netmask c.netmask ++
      putIpv4addr inet ipv4Router c.router ++ putIpv4addr inet ipv4Dns c.dnsaddr)

def ipv6Pairs (c : Ipv6cfg) : List (List UInt8 × List UInt8) :=
  (ipv6Proto, ipv6protoName.getD c.proto.toNat []) ::
    (putIpv6addr inet ipv6Ipaddr c.ipaddr ++ putIpv6addr inet ipv6Netmask c.netmask ++
      putIpv6addr inet ipv6Router c.router)

/-- A stream: what the last call returned, and what was printed so far. -/
abbrev Stream := Except Errno Unit × List (List UInt8 × List UInt8)

def writeIpv4 (stream : Stream) (c : Ipv4cfg) : Stream :=
  if 3 < c.proto then (.error .einval, stream.2) else (.ok (), stream.2 ++ ipv4Pairs inet c)

def writeIpv6 (stream : Stream) (c : Ipv6cfg) : Stream :=
  if 3 < c.proto then (.error .einval, stream.2) else (.ok (), stream.2 ++ ipv6Pairs inet c)

def create : Stream := (.ok (), [(device, netdev.name)])

/-- `ipcfg_write_text_ipv4`: what it returns, and the file. The protocol is checked when the file is already truncated;
if it is wrong, the stream is left open, and the device in its buffer. -/
def writeTextIpv4 (c : Ipv4cfg) : Except Errno Unit × Option (List UInt8) :=
  match keep (readTextIpv6 inet file) with
  | .error e => (.error e, file)
  | .ok ipv6 =>
    let stream := writeIpv4 inet (create netdev) c
    match stream.1 with
    | .error e => (.error e, some [])
    | .ok _ =>
      let stream := ipv6.elim stream (writeIpv6 inet stream)
      (stream.1, some (print stream.2))

def writeTextIpv6 (c : Ipv6cfg) : Except Errno Unit × Option (List UInt8) :=
  match keep (readTextIpv4 inet file) with
  | .error e => (.error e, file)
  | .ok ipv4 =>
    let stream := ipv4.elim (create netdev) (writeIpv4 inet (create netdev))
    match stream.1 with
    | .error e => (.error e, some [])
    | .ok _ =>
      let stream := writeIpv6 inet stream c
      (stream.1, some (print stream.2))

def shown (value : List UInt8) : List UInt8 := (cstr (value ++ [10])).takeWhile isprint

theorem shown_eq {value : List UInt8} (h : ∀ c ∈ value, isprint c) : shown value = value := by
  have hnul : 0 ∉ value ++ [10] := by
    intro h0
    rcases mem_append.mp h0 with h0 | h0
    · exact absurd (h 0 h0) (by decide)
    · simp at h0
  rw [shown, cstr_of_not_mem hnul, takeWhile_append_of_pos h, takeWhile_cons_of_neg (by decide), append_nil]

def isName : Bool := decide (var ≠ []) && var.all fun c => isalpha c || isdigit c

theorem isName_char {c : UInt8} (h : (isalpha c || isdigit c) = true) :
    isspace c = false ∧ isprint c = true ∧ c ≠ 35 ∧ c ≠ 61 ∧ c ≠ 10 ∧ c ≠ 0 := by
  simp [isalpha, isdigit, isspace, isprint, UInt8.le_iff_toNat_le, ← UInt8.toNat_inj] at h ⊢
  omega

variable (b : UInt8) (a : UInt32) {α : Type} {assign : α → List UInt8 × List UInt8 → α} {s : α} {var : List UInt8}

theorem pair_append (hvar : isName var) (value : List UInt8) :
    pair (var ++ 61 :: value) = some (var, (cstr value).takeWhile isprint) := by
  rw [isName, Bool.and_eq_true, decide_eq_true_eq, all_eq_true] at hvar
  have hchar := fun c hc => isName_char (hvar.2 c hc)
  have hcstr : cstr (var ++ 61 :: value) = var ++ 61 :: cstr value := by
    rw [cstr, takeWhile_append_of_pos fun c hc => decide_eq_true (hchar c hc).2.2.2.2.2,
      takeWhile_cons_of_pos (by decide), cstr]
  have htrim : trim (var ++ 61 :: cstr value) = var ++ 61 :: (cstr value).takeWhile isprint := by
    obtain ⟨c, var, rfl⟩ := exists_cons_of_ne_nil hvar.1
    rw [trim, cons_append, dropWhile_cons_of_neg (by simp [(hchar c mem_cons_self).1]),
      ← cons_append, takeWhile_append_of_pos fun c hc => (hchar c hc).2.1,
      takeWhile_cons_of_pos (by decide)]
  have hhead : (var ++ 61 :: (cstr value).takeWhile isprint).head? ≠ some 35 := by
    obtain ⟨c, var, rfl⟩ := exists_cons_of_ne_nil hvar.1
    simpa using (hchar c mem_cons_self).2.2.1
  have hname : ∀ c ∈ var, decide (c ≠ 61) = true := fun c hc => decide_eq_true (hchar c hc).2.2.2.1
  simp only [pair, hcstr, htrim]
  rw [if_neg (by simpa using hhead), if_pos (by simp), takeWhile_append_of_pos hname, dropWhile_append_of_pos hname]
  simp

structure Printed (p : List UInt8 × List UInt8) : Prop where
  isName : isName p.1
  isprint : ∀ c ∈ p.2, isprint c
  length_lt : p.1.length + p.2.length < 78

theorem newline_notMem_of_isName (h : isName var) : 10 ∉ var := by
  rw [isName, Bool.and_eq_true, all_eq_true] at h
  exact fun h10 => absurd (h.2 10 h10) (by decide)

theorem readPairs_print {ps : List (List UInt8 × List UInt8)} (hps : ∀ p ∈ ps, Printed p) :
    readPairs (print ((device, netdev.name) :: ps)) = (device, shown netdev.name) :: ps := by
  have hname : ∀ p ∈ (device, netdev.name) :: ps, isName p.1 ∧ 10 ∉ p.2 ∧ p.1.length + p.2.length < 78 := by
    intro p hp
    rcases mem_cons.mp hp with rfl | hp
    · have hlength := netdev.length_lt
      exact ⟨show isName device from by decide, netdev.newline_notMem, show 6 + netdev.name.length < 78 by omega⟩
    · exact ⟨(hps p hp).isName, fun h10 => absurd ((hps p hp).isprint 10 h10) (by decide), (hps p hp).length_lt⟩
  have hlines : readLines 79 (print ((device, netdev.name) :: ps)) =
      ((device, netdev.name) :: ps).map fun p => p.1 ++ 61 :: p.2 ++ [10] := by
    have hfit : ∀ l ∈ ((device, netdev.name) :: ps).map (fun p => p.1 ++ 61 :: p.2), 10 ∉ l ∧ l.length < 79 := by
      intro l hl
      obtain ⟨p, hp, rfl⟩ := mem_map.mp hl
      have := hname p hp
      exact ⟨by simp [newline_notMem_of_isName this.1, this.2.1], by simp; omega⟩
    have h := readLines_flatMap hfit []
    rw [append_nil, show readLines 79 [] = [] from rfl, append_nil] at h
    simpa only [print, flatMap_map, map_map, Function.comp_def] using h
  have hpair : ∀ p ∈ (device, netdev.name) :: ps, pair (p.1 ++ 61 :: p.2 ++ [10]) = some (p.1, shown p.2) :=
    fun p hp => by rw [append_assoc, cons_append, pair_append (hname p hp).1, shown]
  rw [readPairs, hlines, filterMap_map]
  calc ((device, netdev.name) :: ps).filterMap (fun p => pair (p.1 ++ 61 :: p.2 ++ [10]))
    _ = ((device, netdev.name) :: ps).filterMap fun p => some (p.1, shown p.2) := filterMap_congr hpair
    _ = ((device, netdev.name) :: ps).map fun p => (p.1, shown p.2) := congrFun filterMap_eq_map' _
    _ = (device, shown netdev.name) :: ps := by
      rw [map_cons, map_congr_left fun p hp => by rw [shown_eq (hps p hp).isprint], map_id']

/-! ## The text of two configurations -/

section

variable (inet : Inet)

section

variable {var : List UInt8} (hvar : isName var) (hlength : var.length < 32)

include hvar hlength

theorem printed_ntop4 (a : UInt32) : ∀ p ∈ putIpv4addr inet var a, Printed p := by
  intro p hp
  rw [putIpv4addr] at hp
  split at hp
  · rw [mem_singleton.mp hp]
    exact ⟨hvar, inet.isprint_ntop4 a, by have := inet.length_ntop4 a; simp only; omega⟩
  · simp at hp

theorem printed_ntop6 (a : In6Addr) : ∀ p ∈ putIpv6addr inet var a, Printed p := by
  intro p hp
  rw [putIpv6addr] at hp
  split at hp
  · rw [mem_singleton.mp hp]
    exact ⟨hvar, inet.isprint_ntop6 a, by have := inet.length_ntop6 a; simp only; omega⟩
  · simp at hp

theorem printed_proto {names : List (List UInt8)}
    (hnames : names.all fun name => decide (name.length < 32) && name.all isprint) (n : Nat) :
    Printed (var, names.getD n []) := by
  rw [all_eq_true] at hnames
  rw [getD_eq_getElem?_getD]
  cases hn : names[n]? with
  | none => exact ⟨hvar, by simp, by simp; omega⟩
  | some name =>
    have h := hnames name (mem_of_getElem? hn)
    rw [Bool.and_eq_true, decide_eq_true_eq, all_eq_true] at h
    exact ⟨hvar, h.2, by simp only [Option.getD_some]; omega⟩

end

theorem printed_ipv4Pairs (c : Ipv4cfg) : ∀ p ∈ ipv4Pairs inet c, Printed p := by
  simp only [ipv4Pairs, forall_mem_cons, forall_mem_append]
  exact ⟨printed_proto (by decide) (by decide) (by decide) _,
    ⟨⟨printed_ntop4 inet (by decide) (by decide) _, printed_ntop4 inet (by decide) (by decide) _⟩,
      printed_ntop4 inet (by decide) (by decide) _⟩, printed_ntop4 inet (by decide) (by decide) _⟩

theorem printed_ipv6Pairs (c : Ipv6cfg) : ∀ p ∈ ipv6Pairs inet c, Printed p := by
  simp only [ipv6Pairs, forall_mem_cons, forall_mem_append]
  exact ⟨printed_proto (by decide) (by decide) (by decide) _,
    ⟨printed_ntop6 inet (by decide) (by decide) _, printed_ntop6 inet (by decide) (by decide) _⟩,
      printed_ntop6 inet (by decide) (by decide) _⟩

theorem foldl_putIpv4addr {var : List UInt8} (s : Ipv4cfg × Bool) (set : UInt32 → Ipv4cfg × Bool)
    (hset : ∀ value, assignIpv4 inet s (var, value) = set (inet.addr value)) (hzero : set 0 = s) (a : UInt32) :
    (putIpv4addr inet var a).foldl (assignIpv4 inet) s = set a := by
  by_cases ha : a = 0
  · simp [putIpv4addr, ha, hzero]
  · simp [putIpv4addr, ha, hset, inet.addr_ntop4]

theorem foldl_putIpv6addr {var : List UInt8} (s : Ipv6cfg × Bool) (set : In6Addr → Ipv6cfg × Bool)
    (hset : ∀ value, ∃ old, assignIpv6 inet s (var, value) = set (inet.pton6 value old)) (hzero : set .zero = s)
    (a : In6Addr) : (putIpv6addr inet var a).foldl (assignIpv6 inet) s = set a := by
  by_cases ha : a = .zero
  · simp [putIpv6addr, ha, hzero]
  · obtain ⟨old, h⟩ := hset (inet.ntop6 a)
    simp [putIpv6addr, ha, h, inet.pton6_ntop6]

section

variable {proto : UInt32} (h : proto ≤ 3)

include h

theorem proto_cases : proto = 0 ∨ proto = 1 ∨ proto = 2 ∨ proto = 3 := by
  have h3 : proto.toNat ≤ 3 := by simpa using UInt32.le_iff_toNat_le.mp h
  simp only [← UInt32.toNat_inj]
  simp
  omega

theorem protoOf_ipv4protoName (old : UInt32) :
    protoOf ipv4protoName (ipv4protoName.getD proto.toNat []) old = proto := by
  obtain rfl | rfl | rfl | rfl := proto_cases h <;> rfl

theorem protoOf_ipv6protoName (old : UInt32) :
    protoOf ipv6protoName (ipv6protoName.getD proto.toNat []) old = proto := by
  obtain rfl | rfl | rfl | rfl := proto_cases h <;> rfl

end

theorem foldl_assignIpv4_ipv4Pairs {c : Ipv4cfg} (hc : c.proto ≤ 3) :
    (ipv4Pairs inet c).foldl (assignIpv4 inet) (⟨0, 0, 0, 0, 0⟩, false) = (c, true) := by
  have hproto : assignIpv4 inet (⟨0, 0, 0, 0, 0⟩, false) (ipv4Proto, ipv4protoName.getD c.proto.toNat []) =
      (⟨c.proto, 0, 0, 0, 0⟩, true) := by
    show (Ipv4cfg.mk (protoOf ipv4protoName _ 0) 0 0 0 0, true) = _
    rw [protoOf_ipv4protoName hc]
  simp only [ipv4Pairs, foldl_cons, foldl_append, hproto]
  rw [foldl_putIpv4addr inet _ (fun a => (⟨c.proto, a, 0, 0, 0⟩, true)) (fun _ => rfl) rfl,
    foldl_putIpv4addr inet _ (fun a => (⟨c.proto, c.ipaddr, a, 0, 0⟩, true)) (fun _ => rfl) rfl,
    foldl_putIpv4addr inet _ (fun a => (⟨c.proto, c.ipaddr, c.netmask, a, 0⟩, true)) (fun _ => rfl) rfl,
    foldl_putIpv4addr inet _ (fun a => (⟨c.proto, c.ipaddr, c.netmask, c.router, a⟩, true)) (fun _ => rfl) rfl]

theorem foldl_assignIpv6_ipv6Pairs {c : Ipv6cfg} (hc : c.proto ≤ 3) :
    (ipv6Pairs inet c).foldl (assignIpv6 inet) (⟨0, .zero, .zero, .zero⟩, false) = (c, true) := by
  have hproto : assignIpv6 inet (⟨0, .zero, .zero, .zero⟩, false) (ipv6Proto, ipv6protoName.getD c.proto.toNat []) =
      (⟨c.proto, .zero, .zero, .zero⟩, true) := by
    show (Ipv6cfg.mk (protoOf ipv6protoName _ 0) .zero .zero .zero, true) = _
    rw [protoOf_ipv6protoName hc]
  simp only [ipv6Pairs, foldl_cons, foldl_append, hproto]
  rw [foldl_putIpv6addr inet _ (fun a => (⟨c.proto, a, .zero, .zero⟩, true)) (fun _ => ⟨_, rfl⟩) rfl,
    foldl_putIpv6addr inet _ (fun a => (⟨c.proto, c.ipaddr, a, .zero⟩, true)) (fun _ => ⟨_, rfl⟩) rfl,
    foldl_putIpv6addr inet _ (fun a => (⟨c.proto, c.ipaddr, c.netmask, a⟩, true)) (fun _ => ⟨_, rfl⟩) rfl]

theorem foldl_put
    (h : ∀ value, assign s (var, value) = s) (put : Prop) [Decidable put] (value : List UInt8) :
    (if put then [(var, value)] else []).foldl assign s = s := by
  split
  · exact h value
  · rfl

theorem foldl_elim {β : Type} {f : β → List (List UInt8 × List UInt8)} (h : ∀ c s, (f c).foldl assign s = s)
    (o : Option β) : (o.elim [] f).foldl assign s = s := by
  cases o with
  | none => rfl
  | some c => exact h c s

theorem foldl_assignIpv4_ipv6Pairs (c : Ipv6cfg) (s : Ipv4cfg × Bool) :
    (ipv6Pairs inet c).foldl (assignIpv4 inet) s = s := by
  simp only [ipv6Pairs, putIpv6addr, foldl_cons, foldl_append]
  rw [show assignIpv4 inet s (ipv6Proto, ipv6protoName.getD c.proto.toNat []) = s from rfl, foldl_put fun _ => rfl,
    foldl_put fun _ => rfl, foldl_put fun _ => rfl]

theorem foldl_assignIpv6_ipv4Pairs (c : Ipv4cfg) (s : Ipv6cfg × Bool) :
    (ipv4Pairs inet c).foldl (assignIpv6 inet) s = s := by
  simp only [ipv4Pairs, putIpv4addr, foldl_cons, foldl_append]
  rw [show assignIpv6 inet s (ipv4Proto, ipv4protoName.getD c.proto.toNat []) = s from rfl, foldl_put fun _ => rfl,
    foldl_put fun _ => rfl, foldl_put fun _ => rfl, foldl_put fun _ => rfl]

def pairs (v4 : Option Ipv4cfg) (v6 : Option Ipv6cfg) : List (List UInt8 × List UInt8) :=
  v4.elim [] (ipv4Pairs inet) ++ v6.elim [] (ipv6Pairs inet)

variable (netdev : Netdev) (v4 : Option Ipv4cfg) (v6 : Option Ipv6cfg)

def text : Option (List UInt8) :=
  if v4 = none ∧ v6 = none then none else some (print ((device, netdev.name) :: pairs inet v4 v6))

theorem readPairs_text :
    readPairs (print ((device, netdev.name) :: pairs inet v4 v6)) =
      (device, shown netdev.name) :: pairs inet v4 v6 := by
  refine readPairs_print netdev fun p hp => ?_
  rcases mem_append.mp hp with hp | hp
  · cases v4 with
    | none => simp at hp
    | some c => exact printed_ipv4Pairs inet c p hp
  · cases v6 with
    | none => simp at hp
    | some c => exact printed_ipv6Pairs inet c p hp

theorem readTextIpv4_print (hv : ∀ c ∈ v4, c.proto ≤ 3) :
    readTextIpv4 inet (some (print ((device, netdev.name) :: pairs inet v4 v6))) = found v4 := by
  rw [readTextIpv4, readPairs_text, foldl_cons, pairs, foldl_append, foldl_elim (foldl_assignIpv4_ipv6Pairs inet)]
  cases v4 with
  | none => rfl
  | some c =>
    exact congrArg (fun s : Ipv4cfg × Bool => if s.2 then Except.ok s.1 else .error Errno.enoent)
      (foldl_assignIpv4_ipv4Pairs inet (hv c rfl))

theorem readTextIpv6_print (hv : ∀ c ∈ v6, c.proto ≤ 3) :
    readTextIpv6 inet (some (print ((device, netdev.name) :: pairs inet v4 v6))) = found v6 := by
  rw [readTextIpv6, readPairs_text, foldl_cons, pairs, foldl_append, foldl_elim (foldl_assignIpv6_ipv4Pairs inet)]
  cases v6 with
  | none => rfl
  | some c =>
    exact congrArg (fun s : Ipv6cfg × Bool => if s.2 then Except.ok s.1 else .error Errno.enoent)
      (foldl_assignIpv6_ipv6Pairs inet (hv c rfl))

variable {v4 v6} {file : Option (List UInt8)}

theorem writeTextIpv4_eq (h : readTextIpv6 inet file = found v6) (hv : ∀ c ∈ v6, c.proto ≤ 3) (c : Ipv4cfg) :
    writeTextIpv4 inet netdev file c =
      if 3 < c.proto then (.error .einval, some [])
      else (.ok (), some (print ((device, netdev.name) :: pairs inet (some c) v6))) := by
  rw [writeTextIpv4, h, keep_found]
  split_ifs with hc <;> simp only [writeIpv4, hc, if_true, if_false, create]
  cases v6 with
  | none => simp [pairs]
  | some c6 => simp [writeIpv6, if_neg (UInt32.not_lt.mpr (hv c6 rfl)), pairs]

theorem writeTextIpv6_eq (h : readTextIpv4 inet file = found v4) (hv : ∀ c ∈ v4, c.proto ≤ 3) (c : Ipv6cfg) :
    writeTextIpv6 inet netdev file c =
      if 3 < c.proto then (.error .einval, some (print ((device, netdev.name) :: pairs inet v4 none)))
      else (.ok (), some (print ((device, netdev.name) :: pairs inet v4 (some c)))) := by
  rw [writeTextIpv6, h, keep_found]
  cases v4 with
  | none => split_ifs with hc <;> simp [writeIpv6, hc, create, pairs]
  | some c4 =>
    split_ifs with hc <;> simp [writeIpv4, if_neg (UInt32.not_lt.mpr (hv c4 rfl)), writeIpv6, hc, create, pairs]

end

/-! ## An `Inet`: dotted decimals, and eight groups of four digits -/

namespace Plain

theorem intercalate_spec {sep : UInt8} (hsep : isprint sep) {k : Nat} {gs : List (List UInt8)}
    (hgs : ∀ g ∈ gs, g.length ≤ k ∧ ∀ c ∈ g, isprint c) (hne : gs ≠ []) :
    ([sep].intercalate gs).length < (k + 1) * gs.length ∧ ∀ c ∈ [sep].intercalate gs, isprint c := by
  induction gs with
  | nil => exact absurd rfl hne
  | cons g gs ih =>
    rw [forall_mem_cons] at hgs
    by_cases hnil : gs = []
    · subst hnil
      simpa [Nat.lt_succ_iff] using hgs.1
    · have ih := ih hgs.2 hnil
      rw [intercalate_cons_of_ne_nil hnil]
      constructor
      · simp only [length_append, length_cons, length_nil, Nat.mul_add, Nat.mul_one]
        omega
      · simp only [forall_mem_append, forall_mem_singleton]
        exact ⟨⟨hgs.1.2, hsep⟩, ih.2⟩

def decimalByte : List UInt8 := decimal b.toNat

theorem forall_byte (test : UInt8 → Bool) (h : (List.range 256).all (fun n => test (.ofNat n)) = true) (b : UInt8) :
    test b = true := by
  simpa using all_eq_true.mp h b.toNat (mem_range.mpr b.toNat_lt)

theorem decimalByte_spec :
    UInt8.ofNat (digitsVal (decimalByte b)) = b ∧ (decimalByte b).length ≤ 3 ∧
      ∀ c ∈ decimalByte b, isprint c ∧ c ≠ 46 := by
  have h := forall_byte (fun b => UInt8.ofNat (digitsVal (decimalByte b)) == b &&
    (Nat.ble (decimalByte b).length 3 && (decimalByte b).all fun c => isprint c && c != 46)) (by decide +kernel) b
  simpa using h

def ntop4 : List UInt8 := [46].intercalate ((store false 4 a.toNat).map decimalByte)

def addr (s : List UInt8) : UInt32 := .ofNat (load false ((s.splitOn 46).map fun d => UInt8.ofNat (digitsVal d)))

theorem addr_ntop4 : addr (ntop4 a) = a := by
  have hdot : ∀ l ∈ (store false 4 a.toNat).map decimalByte, 46 ∉ l := by
    intro l hl h46
    obtain ⟨b, -, rfl⟩ := mem_map.mp hl
    exact ((decimalByte_spec b).2.2 46 h46).2 rfl
  have hne : (store false 4 a.toNat).map decimalByte ≠ [] := by simp [store, leBytes]
  have hbytes : ((store false 4 a.toNat).map decimalByte).map (fun d => UInt8.ofNat (digitsVal d)) =
      store false 4 a.toNat := by
    rw [map_map]
    exact (map_congr_left fun b _ => (decimalByte_spec b).1).trans (map_id _)
  rw [addr, ntop4, splitOn_intercalate 46 hdot hne, hbytes, load_store false a.toNat_lt, UInt32.ofNat_toNat]

theorem ntop4_spec : (ntop4 a).length < 16 ∧ ∀ c ∈ ntop4 a, isprint c := by
  have hgroup : ∀ g ∈ (store false 4 a.toNat).map decimalByte, g.length ≤ 3 ∧ ∀ c ∈ g, isprint c := by
    intro g hg
    obtain ⟨b, -, rfl⟩ := mem_map.mp hg
    exact ⟨(decimalByte_spec b).2.1, fun c hc => ((decimalByte_spec b).2.2 c hc).1⟩
  exact intercalate_spec (by decide) hgroup (cons_ne_nil _ _)

def hexDigit (n : Nat) : UInt8 := .ofNat (if n < 10 then 48 + n else 87 + n)

def hexByte : List UInt8 := [hexDigit (b.toNat / 16), hexDigit (b.toNat % 16)]

def unhex : List UInt8 → List UInt8
  | h :: l :: s => .ofNat (16 * (digit h).getD 0 + (digit l).getD 0) :: unhex s
  | _ => []

theorem hexByte_spec : unhex (hexByte b) = [b] ∧ ∀ c ∈ hexByte b, isprint c ∧ c ≠ 58 := by
  have h := forall_byte (fun b => unhex (hexByte b) == [b] &&
    (hexByte b).all fun c => isprint c && c != 58) (by decide +kernel) b
  simpa using h

theorem unhex_flatMap (bs : List UInt8) : unhex (bs.flatMap hexByte) = bs := by
  induction bs with
  | nil => rfl
  | cons b bs ih =>
    have hb := (hexByte_spec b).1
    rw [flatMap_cons]
    simp only [hexByte, cons_append, nil_append, unhex, List.cons.injEq] at hb ⊢
    exact ⟨hb.1, ih⟩

def groups : List UInt8 → List (List UInt8)
  | a :: b :: bs => (hexByte a ++ hexByte b) :: groups bs
  | _ => []

def ntop6 (a : In6Addr) : List UInt8 := [58].intercalate (groups (wordsImage false a.words))

def pton6 (s : List UInt8) (_ : In6Addr) : In6Addr :=
  match wordsOf false 4 (unhex (s.splitOn 58).flatten) with
  | [w0, w1, w2, w3] => ⟨w0, w1, w2, w3⟩
  | _ => .zero

theorem mem_groups {bs g : List UInt8} (h : g ∈ groups bs) : g.length = 4 ∧ ∀ c ∈ g, isprint c ∧ c ≠ 58 := by
  fun_induction groups bs with
  | case1 a b bs ih =>
    rcases mem_cons.mp h with rfl | h
    · refine ⟨rfl, fun c hc => ?_⟩
      rcases mem_append.mp hc with hc | hc
      · exact (hexByte_spec a).2 c hc
      · exact (hexByte_spec b).2 c hc
    · exact ih h
  | case2 => simp at h

theorem pton6_ntop6 (a old : In6Addr) : pton6 (ntop6 a) old = a := by
  have hcolon : ∀ g ∈ groups (wordsImage false a.words), 58 ∉ g :=
    fun g hg h58 => ((mem_groups hg).2 58 h58).2 rfl
  have hflat : (groups (wordsImage false a.words)).flatten = (wordsImage false a.words).flatMap hexByte := rfl
  rw [pton6, ntop6, splitOn_intercalate 58 hcolon (cons_ne_nil _ _), hflat, unhex_flatMap,
    show 4 = a.words.length from rfl, wordsOf_wordsImage]
  rfl

theorem ntop6_spec (a : In6Addr) : (ntop6 a).length < 46 ∧ ∀ c ∈ ntop6 a, isprint c := by
  have hgroup : ∀ g ∈ groups (wordsImage false a.words), g.length ≤ 4 ∧ ∀ c ∈ g, isprint c :=
    fun g hg => ⟨(mem_groups hg).1.le, fun c hc => ((mem_groups hg).2 c hc).1⟩
  have h := intercalate_spec (show isprint 58 by decide) hgroup (cons_ne_nil _ _)
  exact ⟨h.1.trans (show 5 * 8 < 46 by decide), h.2⟩

end Plain

def Inet.plain : Inet where
  ntop4 := Plain.ntop4
  ntop6 := Plain.ntop6
  addr := Plain.addr
  pton6 := Plain.pton6
  isprint_ntop4 a := (Plain.ntop4_spec a).2
  isprint_ntop6 a := (Plain.ntop6_spec a).2
  length_ntop4 a := (Plain.ntop4_spec a).1
  length_ntop6 a := (Plain.ntop6_spec a).1
  addr_ntop4 := Plain.addr_ntop4
  pton6_ntop6 := Plain.pton6_ntop6

end NuttxApps.Ipcfg
