import NuttxApps.Framework.Files
import NuttxApps.Ymodem.Packet

/-!
# The receiver (`ymodem_recv_file`) and the handler of `rb`

`recvStep` is the body of the loop: what one packet, or the error in its place, does to the receiver, and the bytes it
answers with. `rb` opens the named file without truncating it and writes each packet behind the last, up to the
announced length.
-/

namespace NuttxApps.Ymodem

open Files Libc List
open Settings (digits digits_ne_nil digitsVal_digits isdigit_of_mem_digits isdigit_facts takeWhile_isdigit)

/-- A call of `packet_handler`; only a name packet changes `file_length`. -/
inductive Call
  | fileName (name : List UInt8) (length : Nat)
  | data (payload : List UInt8)
deriving DecidableEq

abbrev Handler (η : Type) := η → Call → η × Option Errno

structure Recv (η : Type) where
  /-- What the function has returned, if it has: `none` for 0. -/
  ret : Option (Option Errno)
  /-- Whether `str` is set. -/
  str : Bool
  (totalSeq retries count : Nat)
  priv : η

section

variable {η θ : Type}

def recvInit (p : η) : Recv η := ⟨none, false, 0, 0, 0, p⟩

def nameOf (env : Env) (n : Nat) (data : List UInt8) : Call :=
  let str := data ++ env.behind n
  .fileName ((cstr str).take (pathMax - 1))
    ((atoi env.target (cstr (str.drop ((cstr str).length + 1)))).toInt % env.target.size).toNat

def cancel (r : Recv η) (e : Errno) : Recv η × List UInt8 := ({ r with ret := some (some e) }, [can, can])

/-- A call of the handler: if it succeeds, the packet is counted and answered. -/
def handle (H : Handler η) (r : Recv η) (c : Call) (retries : Nat) (answer : List UInt8) : Recv η × List UInt8 :=
  match H r.priv c with
  | (p, some e) => cancel { r with priv := p } e
  | (p, none) => ({ r with priv := p, totalSeq := (r.totalSeq + 1) % 2 ^ 32, retries := retries }, answer)

/-- What a packet or an error does, and the bytes that are sent before the next one. -/
def recvStep (env : Env) (retry : Int) (H : Handler η) (r : Recv η) (x : Except Errno (UInt8 × List UInt8)) :
    Recv η × List UInt8 :=
  let n := r.count
  let r := { r with count := n + 1 }
  match x with
  | .error .canceled => cancel r .canceled
  | .error .again => ({ r with totalSeq := 0 }, [ack, crc])
  | .error e =>
    let r := { r with retries := r.retries + 1 }
    if retry < r.retries then cancel r e else (r, [if r.str then nak else crc])
  | .ok (seq, data) =>
    -- the subtraction is one of `uint32_t`: with 0 it does not equal any sequence number
    if r.totalSeq % 256 ≠ 0 ∧ r.totalSeq % 256 - 1 = seq.toNat then (r, [ack])
    else if r.totalSeq % 256 ≠ seq.toNat then (r, [crc])
    else if r.totalSeq = 0 then
      if data.headD 0 = 0 then ({ r with ret := some none }, [ack])
      else handle H { r with str := true } (nameOf env n data) r.retries [ack, crc]
    else handle H r (.data data) 0 [ack]

variable {env : Env} {retry : Int} {H : Handler η} {K : Handler θ} {R : η → θ → Prop} {r : Recv η} {q : Recv θ}

theorem handle_ok {c : Call} {retries : Nat} {answer : List UInt8} (h : (H r.priv c).2 = none) :
    handle H r c retries answer =
      ({ r with priv := (H r.priv c).1, totalSeq := (r.totalSeq + 1) % 2 ^ 32, retries := retries }, answer) := by
  rw [handle]
  split <;> simp_all

/-! ## Packets that are accepted or damaged -/

def Handler.log : Handler (List Call) := fun calls c => (calls ++ [c], none)

def Errno.IsDamage (e : Errno) : Prop := e = .ilseq ∨ e = .badmsg

variable {e : Errno} {data : List UInt8} {seq : UInt8}

theorem recvStep_damaged (he : e.IsDamage) (h : (r.retries : Int) + 1 ≤ retry) :
    recvStep env retry H r (.error e) =
      ({ r with count := r.count + 1, retries := r.retries + 1 }, [if r.str then nak else crc]) := by
  have hle : ¬ retry < ((r.retries + 1 : Nat) : Int) := Int.not_lt.mpr h
  rcases he with rfl | rfl <;> simp only [recvStep, if_neg hle]

theorem recvStep_damaged_cancel (he : e.IsDamage) (h : retry < (r.retries : Int) + 1) :
    (recvStep env retry H r (.error e)).1.ret = some (some e) := by
  have hlt : retry < ((r.retries + 1 : Nat) : Int) := h
  rcases he with rfl | rfl <;> simp only [recvStep, if_pos hlt, cancel]

theorem recvStep_end (hseq : r.totalSeq = 0) (hdata : data.headD 0 = 0) :
    recvStep env retry H r (.ok (0, data)) = ({ r with count := r.count + 1, ret := some none }, [ack]) := by
  simp only [recvStep, hseq, hdata, Nat.zero_mod, ne_eq, not_true, false_and, if_false, if_true, UInt8.toNat_zero]

def Recv.named (r : Recv η) (p : η) : Recv η :=
  { r with count := r.count + 1, str := true, priv := p, totalSeq := 1 }

def Recv.advanced (r : Recv η) (p : η) : Recv η :=
  { r with count := r.count + 1, priv := p, totalSeq := r.totalSeq + 1, retries := 0 }

theorem recvStep_name (hseq : r.totalSeq = 0) (hdata : data.headD 0 ≠ 0)
    (hH : (H r.priv (nameOf env r.count data)).2 = none) :
    recvStep env retry H r (.ok (0, data)) =
      (r.named (H r.priv (nameOf env r.count data)).1, [ack, crc]) := by
  simp only [recvStep, hseq, if_neg hdata, Nat.zero_mod, ne_eq, not_true, false_and, if_false, if_true,
    UInt8.toNat_zero]
  exact handle_ok hH

theorem recvStep_next (hpos : r.totalSeq ≠ 0) (hseq : r.totalSeq % 256 = seq.toNat) (data : List UInt8) :
    recvStep env retry H r (.ok (seq, data)) = handle H { r with count := r.count + 1 } (.data data) 0 [ack] := by
  have hprev : ¬ (r.totalSeq % 256 ≠ 0 ∧ r.totalSeq % 256 - 1 = seq.toNat) := by omega
  simp only [recvStep, if_neg hprev, if_neg (not_not_intro hseq), if_neg hpos]

theorem recvStep_data (hpos : r.totalSeq ≠ 0) (hlt : r.totalSeq + 1 < 2 ^ 32) (hseq : r.totalSeq % 256 = seq.toNat)
    (hH : (H r.priv (.data data)).2 = none) :
    recvStep env retry H r (.ok (seq, data)) = (r.advanced (H r.priv (.data data)).1, [ack]) := by
  rw [recvStep_next hpos hseq]
  refine (handle_ok (r := { r with count := r.count + 1 }) hH).trans ?_
  simp only [Nat.mod_eq_of_lt hlt, Recv.advanced]

/-- Behind data packet `n`, its repetition is acknowledged, kept from the handler and followed by packet `n + 1`, unless
the counter has come to a multiple of 256: the number before 0 is then none of a byte. -/
theorem repetition_acked_iff {r₁ : Recv η} {n : Nat} (hn : r.totalSeq = n % 2 ^ 32) (hpos : r.totalSeq ≠ 0)
    (h : recvStep env retry H r (.ok (.ofNat n, data)) = (r₁, [ack])) :
    (recvStep env retry H r₁ (.ok (.ofNat n, data)) = ({ r₁ with count := r₁.count + 1 }, [ack]) ∧
      ∀ next, recvStep env retry H { r₁ with count := r₁.count + 1 } (.ok (.ofNat (n + 1), next)) =
        handle H { r₁ with count := r₁.count + 2 } (.data next) 0 [ack]) ↔ (n + 1) % 256 ≠ 0 := by
  have hseq : r₁.totalSeq % 256 = (n + 1) % 256 := by
    rw [recvStep_next hpos (by rw [UInt8.toNat_ofNat']; omega), handle] at h
    split at h <;> cases h
    show (r.totalSeq + 1) % 2 ^ 32 % 256 = _
    omega
  constructor
  · rintro ⟨hrepeat, -⟩ hzero
    simp only [recvStep, UInt8.toNat_ofNat', hseq, hzero] at hrepeat
    rw [if_neg (by simp), if_pos (by omega)] at hrepeat
    exact absurd (congrArg Prod.snd hrepeat) (by simp [crc, ack])
  · intro hne
    have hpos₁ : r₁.totalSeq ≠ 0 := fun h₀ => hne (by rw [← hseq, h₀])
    refine ⟨?_, recvStep_next (r := { r₁ with count := r₁.count + 1 }) hpos₁ ?_⟩
    · simp only [recvStep, UInt8.toNat_ofNat', hseq]
      exact if_pos ⟨hne, by omega⟩
    · rw [UInt8.toNat_ofNat']
      exact hseq

theorem repetition_acked_first :
    (recvStep .plain 5 .log ⟨none, true, 2, 0, 2, [.data [97]]⟩ (.ok (1, [97]))).2 = [ack] :=
  congrArg Prod.snd ((repetition_acked_iff (r := ⟨none, true, 1, 0, 1, []⟩) (n := 1) rfl (by decide) rfl).mpr
    (by decide)).1

/-- The last of 255 data packets is repeated, and the receiver asks for another file. -/
theorem repetition_refused :
    (recvStep .plain 5 .log ((List.range 256).foldl
      (fun r n => (recvStep .plain 5 .log r (.ok (.ofNat n, List.replicate 128 97))).1) (recvInit []))
      (.ok (255, List.replicate 128 97))).2 = [crc] := by
  decide +kernel

end

theorem atoi_digits (t : Target) {n : Nat} (h : n < 2 ^ 31) {rest : List UInt8} (hr : isdigit (rest.headD 0) = false) :
    (atoi t (digits n ++ rest)).toInt = n := by
  have hsize := t.le_size
  obtain ⟨c, ds, hds⟩ := exists_cons_of_ne_nil (digits_ne_nil n)
  have hc := isdigit_facts (isdigit_of_mem_digits (show c ∈ digits n by simp [hds]))
  have hblank : (digits n ++ rest).dropWhile isspace = digits n ++ rest := by
    rw [hds, cons_append, dropWhile_cons_of_neg (by simp [hc.1])]
  have hhead : (digits n ++ rest).head? = some c := by rw [hds]; rfl
  have hminus : (some c == some (45 : UInt8)) = false := by simp [hc.2.2.1]
  have hplus : (some c == some (43 : UInt8)) = false := by simp [hc.2.2.2.1]
  have htake : (digits n ++ rest).takeWhile isdigit = digits n :=
    (takeWhile_isdigit rest (fun c => isdigit_of_mem_digits) hr).1
  simp only [atoi, hblank, hhead, hminus, hplus, Bool.or_self, htake, digitsVal_digits, Bool.false_eq_true, if_false]
  rw [Int32.toInt_ofInt, show Int32.size = 4294967296 from rfl, Int.bmod_eq_of_le] <;> omega

/-- The text that `ymodem_send_file` prints into a name packet. -/
def nameText (name : List UInt8) (length : Nat) : List UInt8 := name ++ 0 :: (digits length ++ [0])

theorem nameOf_nameText {env : Env} {name : List UInt8} {length : Nat} (hname : 0 ∉ name)
    (hpath : name.length < pathMax) (hlength : length < 2 ^ 31) (n : Nat) (rest : List UInt8) :
    nameOf env n (nameText name length ++ rest) = .fileName name length := by
  have hsize := env.target.le_size
  have hdigits : 0 ∉ digits length := fun h => absurd (isdigit_of_mem_digits h) (by decide)
  have htext : nameText name length ++ rest ++ env.behind n =
      name ++ 0 :: (digits length ++ 0 :: (rest ++ env.behind n)) := by
    simp [nameText]
  have hdrop : (name ++ 0 :: (digits length ++ 0 :: (rest ++ env.behind n))).drop (name.length + 1) =
      digits length ++ 0 :: (rest ++ env.behind n) := by
    simp
  rw [nameOf, htext, cstr_append hname, hdrop, cstr_append hdigits]
  have hatoi : (atoi env.target (digits length)).toInt = length := by
    have h := atoi_digits env.target hlength (show isdigit (([] : List UInt8).headD 0) = false from rfl)
    rwa [append_nil] at h
  rw [hatoi, take_of_length_le (Nat.le_sub_one_of_lt hpath), Int.emod_eq_of_lt (by omega) (by omega), Int.toNat_natCast]

/-- A file that was opened for a name packet: the name, `file_length` and the bytes written since. -/
structure Stored where
  name : List UInt8
  length : Nat
  bytes : List UInt8

structure Rb where
  dir : List UInt8 → Option (List UInt8)
  opened : List Stored
  calls : Nat

namespace Rb

variable (p : Rb)

def write (piece : List UInt8) : Rb :=
  match p.opened with
  | [] => p
  | s :: ss =>
    { p with
      dir := fun name =>
        if name = s.name then some (overwrite ((p.dir name).getD []) s.bytes.length piece) else p.dir name
      opened := { s with bytes := s.bytes ++ piece } :: ss }

variable (payload : List UInt8)

def piece : List UInt8 :=
  match p.opened with
  | [] => payload
  | s :: _ =>
    if s.length < s.bytes.length + payload.length then payload.take (s.length - s.bytes.length) else payload

def openFile (name : List UInt8) (length : Nat) : Rb :=
  { p with
    dir := fun n => if n = name then some ((p.dir n).getD []) else p.dir n
    opened := ⟨name, length, []⟩ :: p.opened }

end Rb

/-- `handler`. The `n`-th call fails if `fault n` says so, a write then after that many bytes; with nothing to write it
does not. -/
def rb (fault : Nat → Option (Nat × Errno)) : Handler Rb := fun p c =>
  let n := p.calls
  let p := { p with calls := n + 1 }
  match c with
  | .fileName name length =>
    match fault n with
    | some (_, e) => (p, some e)
    | none => (p.openFile name length, none)
  | .data payload =>
    match if p.piece payload = [] then none else fault n with
    | some (k, e) => (p.write ((p.piece payload).take k), some e)
    | none => (p.write (p.piece payload), none)

theorem rb_data (p : Rb) (payload : List UInt8) :
    rb (fun _ => none) p (.data payload) =
      (({ p with calls := p.calls + 1 } : Rb).write (p.piece payload), none) := by
  simp only [rb, ite_self]
  rfl

theorem rb_total (p : Rb) (c : Call) : (rb (fun _ => none) p c).2 = none := by
  cases c with
  | fileName name length => rfl
  | data payload => rw [rb_data]

end NuttxApps.Ymodem
