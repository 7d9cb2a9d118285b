import NuttxApps.Framework.Duplex
import NuttxApps.Ymodem.Send

/-!
# Sessions over a channel that damages packets

Of each packet with data a row of damaged copies arrives, then the intact one. A damaged copy is answered by `NAK` and
sent again, except before the first name (`reaches_first_damaged`), and those of a name are still counted at the first
data packet (`reaches_file_cancelled`). With these two exceptions every file is delivered (`always_delivered_iff`), in
whatever order the two sides are scheduled.
-/

namespace NuttxApps.Ymodem

open Duplex
open List hiding max

/-- A file as `stat` and `basename` give it: the name is a string, the size an `off_t` of 32 bits. -/
structure Regular extends File where
  name_ne : name ≠ []
  name_nul : 0 ∉ name
  small : contents.length < 2 ^ 31

/-- The sequence number or the CRC of the bytes is wrong, or their first byte is no type of a packet. -/
def Damaged (env : Env) (bs : List UInt8) : Prop :=
  ∃ e es, e.IsDamage ∧ recvPacket env (bs.map .ok) = some (.error e, es)

/-- The damaged copies that arrive before packet `i` does, counting the packets that were accepted. -/
structure Channel (env : Env) where
  rows : Nat → List (List UInt8)
  damaged : ∀ i, ∀ bs ∈ rows i, Damaged env bs

structure Wire where
  index : Nat
  row : List (List UInt8)

section

variable {env : Env} (C : Channel env)

namespace Channel

def wire (i : Nat) : Wire := ⟨i, C.rows i⟩

def pass (w : Wire) (m : List UInt8) : Wire × List UInt8 :=
  if m = [eot] then (w, m)
  else
    match w.row with
    | bs :: row => (⟨w.index, row⟩, bs)
    | [] => (C.wire (w.index + 1), m)

def passAll : Wire → List (List UInt8) → Wire × List (List UInt8)
  | w, [] => (w, [])
  | w, m :: ms =>
    let (w, m) := C.pass w m
    let (w, ms) := passAll w ms
    (w, m :: ms)

end Channel

def Send.returned (s : Send) : Bool :=
  match s.phase with
  | .done _ => true
  | _ => false

end

theorem Regular.headD_nameData (env : Env) (f : Regular) (n : Nat) : (nameData env n f.toFile).headD 0 ≠ 0 := by
  obtain ⟨c, name, hc⟩ := exists_cons_of_ne_nil f.name_ne
  have hhead : (nameData env n f.toFile).headD 0 = c := by
    rw [nameData, nameText, hc]
    rfl
  rw [hhead]
  intro h0
  exact f.name_nul (by rw [hc, h0]; exact mem_cons_self)

/-- What a session is run with: the channel, the retries of both sides, and a handler that does not fail. -/
structure Link (env : Env) (η : Type) where
  channel : Channel env
  (sendRetry recvRetry : Int)
  handler : Handler η
  total : ∀ p c, (handler p c).2 = none

namespace Link

variable {env : Env} {η : Type} (l : Link env η)

def sender : Machine (Send × Wire) Event (List UInt8) where
  halted := fun s => s.1.returned
  react := fun s e =>
    let (s', ms) := sendReact env (fun _ => none) l.sendRetry s.1 e
    let (w, ms) := l.channel.passAll s.2 ms
    ((s', w), ms)

/-- The receiver. What is left of a damaged packet is discarded. -/
def receiver : Machine (Recv η) (List UInt8) Event where
  halted := fun r => r.ret.isSome
  react := fun r m =>
    match recvPacket env (m.map .ok) with
    | none => (r, [])
    | some (x, _) =>
      let (r', answer) := recvStep env l.recvRetry l.handler r x
      (r', answer.map .ok)

def start (p : η) (args : List (Option File)) : Joint (Send × Wire) (Recv η) (List UInt8) Event :=
  ⟨(sendInit l.sendRetry args, l.channel.wire 0), recvInit p, [], [.ok crc]⟩

def sent (x : Send × List (List UInt8)) (w : Wire) (r : Recv η) : Joint (Send × Wire) (Recv η) (List UInt8) Event :=
  ⟨(x.1, (l.channel.passAll w x.2).1), r, (l.channel.passAll w x.2).2, []⟩

abbrev Reaches (c d : Joint (Send × Wire) (Recv η) (List UInt8) Event) : Prop := Runs l.sender l.receiver c d

end Link

def payloadsAux (env : Env) : Nat → List UInt8 → List (List UInt8)
  | 0, _ => []
  | fuel + 1, rest =>
    payload env rest ::
      if rest.drop (dataSize env rest) ≠ [] then payloadsAux env fuel (rest.drop (dataSize env rest)) else []

def payloads (env : Env) (contents : List UInt8) : List (List UInt8) := payloadsAux env (contents.length + 1) contents

def File.Announces (env : Env) (f : File) (c : Call) : Prop := ∃ n k, c = nameOf env k (nameData env n f)

/-- The calls of the handler for some files: for each one its name, once, then its data packets in order. -/
def CallsFor (env : Env) : List Regular → List Call → Prop
  | [], cs => cs = []
  | f :: fs, cs =>
    ∃ c rest, f.toFile.Announces env c ∧ CallsFor env fs rest ∧ cs = c :: (payloads env f.contents).map .data ++ rest

variable {env : Env} {η : Type} (l : Link env η) {s : Send} {w : Wire} {r : Recv η}

namespace Link

theorem step_sender (h : s.returned = false) (w : Wire) (r : Recv η) (e : Event) (es : List Event) :
    Step l.sender l.receiver ⟨(s, w), r, [], e :: es⟩
      { l.sent (sendReact env (fun _ => none) l.sendRetry s e) w r with toLeft := es } :=
  .left h

theorem step_receiver {x : Except Errno (UInt8 × List UInt8)} {m : List UInt8} {es : List Event}
    (h : recvPacket env (m.map .ok) = some (x, es)) (hret : r.ret = none) (s : Send) (w : Wire) :
    Step l.sender l.receiver ⟨(s, w), r, [m], []⟩
      ⟨(s, w), (recvStep env l.recvRetry l.handler r x).1, [],
        (recvStep env l.recvRetry l.handler r x).2.map .ok⟩ := by
  have hreact : l.receiver.react r m = ((recvStep env l.recvRetry l.handler r x).1,
      (recvStep env l.recvRetry l.handler r x).2.map .ok) := by
    simp only [receiver, h]
  have hstep : Step l.sender l.receiver ⟨(s, w), r, [m], []⟩
      ⟨(s, w), (l.receiver.react r m).1, [], [] ++ (l.receiver.react r m).2⟩ :=
    .right (show r.ret.isSome = false by rw [hret]; rfl)
  rwa [hreact] at hstep

end Link

structure Send.Waits (s : Send) : Prop where
  phase : s.phase = .nameAck ∨ s.phase = .dataAck ∨ s.phase = .lastAck
  packet : s.packet ≠ [eot]

theorem packet_ne_eot (env : Env) (type seq : UInt8) (data : List UInt8) : packet env type seq data ≠ [eot] := by
  simp [packet]

theorem packed_waits (env : Env) (s : Send) : (s.packed env).Waits := ⟨.inr (.inl rfl), packet_ne_eot _ _ _ _⟩

theorem named_waits (env : Env) (s : Send) (f : File) (args : List (Option File)) : (s.named env f args).Waits :=
  ⟨.inl rfl, packet_ne_eot _ _ _ _⟩

theorem sendLast_waits (env : Env) (s : Send) : (sendLast env s).1.Waits := ⟨.inr (.inr rfl), packet_ne_eot _ _ _ _⟩

theorem Send.Waits.returned (h : s.Waits) : s.returned = false := by
  rcases h.phase with h | h | h <;> rw [Send.returned, h]

theorem Send.Waits.react_nak (h : s.Waits) (retry : Int) :
    sendReact env (fun _ => none) retry s (.ok nak) = (s, [s.packet]) := by
  rcases h.phase with h | h | h <;> simp only [sendReact, h, await_nak]

def Recv.again (r : Recv η) (k : Nat) : Recv η := { r with count := r.count + k, retries := r.retries + k }

theorem Recv.again_again (r : Recv η) (j k : Nat) : (r.again j).again k = r.again (j + k) := by
  simp only [again, add_assoc]

namespace Link

theorem sent_nil (hs : s.Waits) (i : Nat) (r : Recv η) :
    l.sent (s, [s.packet]) ⟨i, []⟩ r = ⟨(s, l.channel.wire (i + 1)), r, [s.packet], []⟩ := by
  simp [sent, Channel.passAll, Channel.pass, hs.packet]

theorem sent_cons (hs : s.Waits) (i : Nat) (bs : List UInt8) (row : List (List UInt8)) (r : Recv η) :
    l.sent (s, [s.packet]) ⟨i, bs :: row⟩ r = ⟨(s, ⟨i, row⟩), r, [bs], []⟩ := by
  simp [sent, Channel.passAll, Channel.pass, hs.packet]

theorem reaches_damaged (hs : s.Waits) {bs : List UInt8} (hbs : Damaged env bs) (hret : r.ret = none)
    (hstr : r.str = true) (hle : (r.retries : Int) + 1 ≤ l.recvRetry) (i : Nat) (row : List (List UInt8)) :
    l.Reaches (l.sent (s, [s.packet]) ⟨i, bs :: row⟩ r) (l.sent (s, [s.packet]) ⟨i, row⟩ (r.again 1)) := by
  obtain ⟨e, es, he, hrecv⟩ := hbs
  have hstep := l.step_receiver hrecv hret s ⟨i, row⟩
  rw [recvStep_damaged he hle, if_pos hstr] at hstep
  have hnak := l.step_sender hs.returned ⟨i, row⟩ (r.again 1) (.ok nak) []
  rw [hs.react_nak] at hnak
  rw [sent_cons l hs]
  exact .head hstep (.head hnak (.refl _))

theorem reaches_row (hs : s.Waits) (i : Nat) {row : List (List UInt8)} (hrow : ∀ bs ∈ row, Damaged env bs)
    (hret : r.ret = none) (hstr : row ≠ [] → r.str = true) (hle : (r.retries + row.length : Int) ≤ max l.recvRetry 0) :
    l.Reaches (l.sent (s, [s.packet]) ⟨i, row⟩ r)
      ⟨(s, l.channel.wire (i + 1)), r.again row.length, [s.packet], []⟩ := by
  induction row generalizing r with
  | nil =>
    rw [sent_nil l hs]
    exact .refl _
  | cons bs row ih =>
    have hstr' := hstr (cons_ne_nil bs row)
    rw [length_cons] at hle
    have hfirst := l.reaches_damaged hs (hrow bs mem_cons_self) hret hstr' (by omega) i row
    have hrest := ih (r := r.again 1) (fun bs hbs => hrow bs (mem_cons_of_mem _ hbs)) hret (fun _ => hstr')
      (by simp only [Recv.again]; push_cast; omega)
    rw [Recv.again_again, add_comm 1 row.length] at hrest
    exact hfirst.trans hrest

end Link

def Cancelled (c : Joint (Send × Wire) (Recv η) (List UInt8) Event) : Prop := ∃ e, c.right.ret = some (some e)

namespace Link

theorem reaches_row_cancelled (hs : s.Waits) (i : Nat) {row : List (List UInt8)} (hrow : ∀ bs ∈ row, Damaged env bs)
    (hret : r.ret = none) (hstr : r.str = true) (hle : (r.retries : Int) ≤ l.recvRetry)
    (hlt : l.recvRetry < (r.retries + row.length : Int)) :
    ∃ d, l.Reaches (l.sent (s, [s.packet]) ⟨i, row⟩ r) d ∧ Cancelled d := by
  induction row generalizing r with
  | nil => simp at hlt; omega
  | cons bs row ih =>
    have hbs := hrow bs mem_cons_self
    rw [length_cons] at hlt
    by_cases hretry : (r.retries : Int) + 1 ≤ l.recvRetry
    · have hfirst := l.reaches_damaged hs hbs hret hstr hretry i row
      obtain ⟨d, hd, hc⟩ := ih (r := r.again 1) (fun bs hbs => hrow bs (mem_cons_of_mem _ hbs)) hret hstr hretry
        (by simp only [Recv.again]; push_cast; omega)
      exact ⟨d, hfirst.trans hd, hc⟩
    · obtain ⟨e, es, he, hrecv⟩ := hbs
      rw [sent_cons l hs]
      exact ⟨_, .head (l.step_receiver hrecv hret s ⟨i, row⟩) (.refl _), e, recvStep_damaged_cancel he (by omega)⟩

theorem reaches_accepted (hs : s.Waits) {type seq : UInt8} {data : List UInt8}
    (hpacket : s.packet = packet env type seq data) (htype : packetSize env type = some data.length) {i : Nat}
    (hret : r.ret = none) (hstr : l.channel.rows i ≠ [] → r.str = true)
    (hle : (r.retries + (l.channel.rows i).length : Int) ≤ max l.recvRetry 0) {r' : Recv η} {answer : List UInt8}
    (hstep : recvStep env l.recvRetry l.handler (r.again (l.channel.rows i).length) (.ok (seq, data)) =
      (r', ack :: answer)) :
    l.Reaches (l.sent (s, [s.packet]) (l.channel.wire i) r)
      { l.sent (sendReact env (fun _ => none) l.sendRetry s (.ok ack)) (l.channel.wire (i + 1)) r' with
        toLeft := answer.map .ok } := by
  have hrecv : recvPacket env (s.packet.map .ok) = some (.ok (seq, data), []) := by
    rw [hpacket, ← append_nil (List.map _ _)]
    exact recvPacket_packet htype seq []
  have hintact := l.step_receiver (r := r.again (l.channel.rows i).length) hrecv hret s (l.channel.wire (i + 1))
  rw [hstep] at hintact
  have hack := l.step_sender hs.returned (l.channel.wire (i + 1)) r' (.ok ack) (answer.map .ok)
  exact (l.reaches_row hs i (l.channel.damaged i) hret hstr hle).trans (.head hintact (.head hack (.refl _)))

theorem reaches_eot (hret : r.ret = none) (s : Send) (w : Wire) :
    l.Reaches (l.sent (sendEot s) w r)
      (l.sent (sendStart env { s with phase := .eotCrc }) w
        { r with count := r.count + 1, totalSeq := 0 }) := by
  have hrecv : recvPacket env (([eot] : List UInt8).map .ok) = some (.error .again, []) := rfl
  have hstep := l.step_receiver hrecv hret (sendEot s).1 w
  have hack := l.step_sender (show (sendEot s).1.returned = false from rfl) w
    { r with count := r.count + 1, totalSeq := 0 } (.ok ack) [.ok crc]
  have hcrc := l.step_sender (show Send.returned { s with phase := .eotCrc } = false from rfl) w
    { r with count := r.count + 1, totalSeq := 0 } (.ok crc) []
  exact .head hstep (.head hack (.head hcrc (.refl _)))

def calls (p : η) (cs : List Call) : η := cs.foldl (fun p c => (l.handler p c).1) p

theorem reaches_packet {i : Nat} (hret : r.ret = none) (hstr : r.str = true) (hpos : r.totalSeq ≠ 0)
    (hlt : r.totalSeq + 1 < 2 ^ 32) (hseq : r.totalSeq % 256 = (s.seq.toNat + 1) % 256)
    (hrow : (r.retries + (l.channel.rows i).length : Int) ≤ max l.recvRetry 0) :
    ∃ s' r', l.Reaches (l.sent (sendPacket env (fun _ => none) s) (l.channel.wire i) r)
        (l.sent (if s'.rest ≠ [] then sendPacket env (fun _ => none) s' else sendEot s') (l.channel.wire (i + 1)) r') ∧
      s'.args = s.args ∧ s'.rest = s.rest.drop (dataSize env s.rest) ∧ s'.seq = s.seq + 1 ∧
      r'.ret = none ∧ r'.str = true ∧ r'.totalSeq = r.totalSeq + 1 ∧ r'.retries = 0 ∧
      r'.priv = (l.handler r.priv (.data (payload env s.rest))).1 := by
  have hdata := l.reaches_accepted (packed_waits env s) rfl
    (by rw [length_payload]; exact packetSize_dataType env s.rest) hret (fun _ => hstr) hrow
    (recvStep_data hpos hlt (by rw [UInt8.toNat_add]; exact hseq) (l.total ..))
  rw [sendPacket_eq]
  exact ⟨s.packed env, _, hdata,
    rfl, rfl, rfl, hret, hstr, rfl, rfl, rfl⟩

theorem reaches_payloads {fuel i : Nat} (hfuel : s.rest.length < fuel) (hret : r.ret = none) (hstr : r.str = true)
    (hpos : r.totalSeq ≠ 0) (hseq : r.totalSeq % 256 = (s.seq.toNat + 1) % 256)
    (hbound : r.totalSeq + s.rest.length + 1 < 2 ^ 32)
    (hrow : (r.retries + (l.channel.rows i).length : Int) ≤ max l.recvRetry 0)
    (hrows : ∀ j, ((l.channel.rows j).length : Int) ≤ max l.recvRetry 0) :
    ∃ s' r', l.Reaches (l.sent (sendPacket env (fun _ => none) s) (l.channel.wire i) r)
        (l.sent (sendEot s') (l.channel.wire (i + (payloadsAux env fuel s.rest).length)) r') ∧
      s'.args = s.args ∧ r'.ret = none ∧ r'.str = true ∧ r'.retries = 0 ∧
      r'.priv = l.calls r.priv ((payloadsAux env fuel s.rest).map .data) := by
  induction fuel generalizing s r i with
  | zero => exact absurd hfuel (Nat.not_lt_zero _)
  | succ fuel ih =>
    obtain ⟨s₁, r₁, hrun, hargs, hrest, hseq₁, hret₁, hstr₁, htotal, hretries, hpriv⟩ :=
      l.reaches_packet (s := s) hret hstr hpos (by omega) hseq hrow
    have hsize := dataSize_pos env s.rest
    rw [payloadsAux, ← hrest, map_cons, calls, foldl_cons, ← hpriv]
    by_cases hmore : s₁.rest ≠ []
    · have hlength := length_pos_iff.mpr hmore
      have hdrop : s₁.rest.length = s.rest.length - dataSize env s.rest := by rw [hrest, length_drop]
      have hnext : r₁.totalSeq % 256 = (s₁.seq.toNat + 1) % 256 := by
        rw [hseq₁, UInt8.toNat_add, show (1 : UInt8).toNat = 1 from rfl, htotal]
        omega
      have hrow₁ : (r₁.retries + (l.channel.rows (i + 1)).length : Int) ≤ max l.recvRetry 0 := by
        have := hrows (i + 1)
        omega
      obtain ⟨s', r', hrun', hargs', hstate⟩ := ih (by omega) hret₁ hstr₁ (by omega) hnext (by omega) hrow₁
      rw [if_pos hmore] at hrun ⊢
      rw [length_cons, ← Nat.add_assoc, Nat.add_right_comm]
      exact ⟨s', r', hrun.trans hrun', hargs'.trans hargs, hstate⟩
    · rw [if_neg hmore] at hrun ⊢
      exact ⟨s₁, r₁, hrun, hargs, hret₁, hstr₁, hretries, rfl⟩

structure Ready (r : Recv η) (i : Nat) : Prop where
  ret : r.ret = none
  totalSeq : r.totalSeq = 0
  retries : r.retries = 0
  str : l.channel.rows i ≠ [] → r.str = true

variable {f : Regular} {args : List (Option File)} {i : Nat} (hargs : s.args = some f.toFile :: args)
  (hready : l.Ready r i)

include hargs hready

/-- A name packet is accepted after its damaged copies; they count as retries of the first data packet, too. -/
theorem reaches_named (hrow : ((l.channel.rows i).length : Int) ≤ max l.recvRetry 0) :
    ∃ s' r' c, l.Reaches (l.sent (sendStart env s) (l.channel.wire i) r)
        (l.sent (sendPacket env (fun _ => none) s') (l.channel.wire (i + 1)) r') ∧
      s'.args = args ∧ s'.rest = f.contents ∧ s'.seq = 0 ∧
      r'.ret = none ∧ r'.str = true ∧ r'.totalSeq = 1 ∧ r'.retries = (l.channel.rows i).length ∧
      f.toFile.Announces env c ∧ r'.priv = (l.handler r.priv c).1 := by
  have hsize := env.target.le_size
  have hsmall := f.small
  have hname := l.reaches_accepted (named_waits env s f.toFile args) rfl
    (by rw [length_nameData env s.names f.toFile]; rfl) hready.ret hready.str (by rw [hready.retries]; omega)
    (recvStep_name hready.totalSeq (f.headD_nameData env s.names) (l.total ..))
  have hcrc := fun r => l.step_sender (s := { s.named env f.toFile args with phase := .nameCrc }) rfl
    (l.channel.wire (i + 1)) r (.ok crc) []
  rw [sendStart, hargs]
  refine ⟨_, _, _, hname.trans (.head (hcrc _) (.refl _)), rfl, File.sent_of_lt (by omega), rfl, hready.ret, rfl, rfl,
    ?_, ⟨_, _, rfl⟩, rfl⟩
  show r.retries + (l.channel.rows i).length = (l.channel.rows i).length
  rw [hready.retries, zero_add]

theorem reaches_file (hrows : ∀ j, ((l.channel.rows j).length : Int) ≤ max l.recvRetry 0)
    (hle : ((l.channel.rows i).length + (l.channel.rows (i + 1)).length : Int) ≤ max l.recvRetry 0) :
    ∃ s' r', l.Reaches (l.sent (sendStart env s) (l.channel.wire i) r)
        (l.sent (sendStart env s') (l.channel.wire (i + 1 + (payloads env f.contents).length)) r') ∧
      s'.args = args ∧ (∀ j, l.Ready r' j) ∧
      ∃ c, f.toFile.Announces env c ∧ r'.priv = l.calls r.priv (c :: (payloads env f.contents).map .data) := by
  have hsmall := f.small
  obtain ⟨s₁, r₁, c, hname, hargs₁, hrest, hseq, hret, hstr, htotal, hretries, hc, hpriv⟩ :=
    l.reaches_named hargs hready (hrows i)
  obtain ⟨s₂, r₂, hdata, hargs₂, hret₂, hstr₂, hretries₂, hpriv₂⟩ :=
    l.reaches_payloads (Nat.lt_succ_self s₁.rest.length) hret hstr (by omega) (by rw [htotal, hseq]; rfl)
      (by rw [hrest]; omega) (by rw [hretries]; exact hle) hrows
  have heot := l.reaches_eot hret₂ s₂ (l.channel.wire (i + 1 + (payloads env f.contents).length))
  rw [hrest] at hdata hpriv₂
  refine ⟨_, _, (hname.trans hdata).trans heot, hargs₂.trans hargs₁,
    fun j => ⟨hret₂, rfl, hretries₂, fun _ => hstr₂⟩, c, hc, ?_⟩
  rw [calls, foldl_cons, ← hpriv]
  exact hpriv₂

/-- Too many damaged copies of a name and of the first data packet make the receiver give up. -/
theorem reaches_file_cancelled (hrow : ((l.channel.rows i).length : Int) ≤ l.recvRetry)
    (hlt : l.recvRetry < ((l.channel.rows i).length + (l.channel.rows (i + 1)).length : Int)) :
    ∃ d, l.Reaches (l.sent (sendStart env s) (l.channel.wire i) r) d ∧ Cancelled d := by
  obtain ⟨s₁, r₁, -, hname, -, -, -, hret, hstr, -, hretries, -, -⟩ :=
    l.reaches_named hargs hready (Int.le_trans hrow (Int.le_max_left ..))
  rw [sendPacket_eq] at hname
  obtain ⟨d, hd, hc⟩ := l.reaches_row_cancelled (packed_waits env s₁) (i + 1) (l.channel.damaged (i + 1)) hret hstr
    (by rw [hretries]; exact hrow) (by rw [hretries]; exact hlt)
  exact ⟨d, hname.trans hd, hc⟩

end Link

/-! ## Whole sessions -/

/-- The damaged copies of name and first data packet of each file are together no more than the retries. -/
def Channel.Tolerable (C : Channel env) (retry : Int) : Nat → List Regular → Prop
  | _, [] => True
  | i, f :: fs =>
    ((C.rows i).length + (C.rows (i + 1)).length : Int) ≤ retry ∧
      C.Tolerable retry (i + 1 + (payloads env f.contents).length) fs

namespace Link

def Delivered (p : η) (fs : List Regular) (c : Joint (Send × Wire) (Recv η) (List UInt8) Event) : Prop :=
  c.left.1.phase = .done none ∧ c.right.ret = some none ∧
    ∃ cs, CallsFor env fs cs ∧ c.right.priv = l.calls p cs

theorem reaches_end {i : Nat} (hargs : s.args = []) (hready : l.Ready r i)
    (hrow : ((l.channel.rows i).length : Int) ≤ max l.recvRetry 0) :
    ∃ d, l.Reaches (l.sent (sendStart env s) (l.channel.wire i) r) d ∧ l.Delivered r.priv [] d := by
  have hlast := l.reaches_accepted (sendLast_waits env s) rfl rfl hready.ret hready.str (by rw [hready.retries]; omega)
    (recvStep_end hready.totalSeq rfl)
  rw [sendStart, hargs]
  exact ⟨_, hlast, rfl, rfl, [], rfl, rfl⟩

section

variable {fs : List Regular} {i : Nat} (hargs : s.args = fs.map fun f => some f.toFile) (hready : l.Ready r i)

include hargs hready

theorem reaches_delivered (hrows : ∀ j, ((l.channel.rows j).length : Int) ≤ max l.recvRetry 0)
    (h : l.channel.Tolerable (max l.recvRetry 0) i fs) :
    ∃ d, l.Reaches (l.sent (sendStart env s) (l.channel.wire i) r) d ∧ l.Delivered r.priv fs d := by
  induction fs generalizing s r i with
  | nil => exact l.reaches_end hargs hready (hrows i)
  | cons f fs ih =>
    obtain ⟨s', r', hfile, hargs', hready', c, hc, hpriv⟩ := l.reaches_file hargs hready hrows h.1
    obtain ⟨d, hd, hleft, hright, cs, hcs, hall⟩ := ih hargs' (hready' _) h.2
    refine ⟨d, hfile.trans hd, hleft, hright, _, ⟨c, cs, hc, hcs, rfl⟩, ?_⟩
    rw [calls, foldl_append, hall, hpriv]
    rfl

theorem reaches_cancelled (hrows : ∀ j, ((l.channel.rows j).length : Int) ≤ l.recvRetry)
    (h : ¬ l.channel.Tolerable l.recvRetry i fs) :
    ∃ d, l.Reaches (l.sent (sendStart env s) (l.channel.wire i) r) d ∧ Cancelled d := by
  induction fs generalizing s r i with
  | nil => exact absurd trivial h
  | cons f fs ih =>
    by_cases hle : ((l.channel.rows i).length + (l.channel.rows (i + 1)).length : Int) ≤ l.recvRetry
    · obtain ⟨s', r', hfile, hargs', hready', -⟩ :=
        l.reaches_file hargs hready (fun j => Int.le_trans (hrows j) (Int.le_max_left ..))
          (Int.le_trans hle (Int.le_max_left ..))
      obtain ⟨d, hd, hc⟩ := ih hargs' (hready' _) fun htol => h ⟨hle, htol⟩
      exact ⟨d, hfile.trans hd, hc⟩
    · exact l.reaches_file_cancelled hargs hready (hrows i) (Int.not_le.mp hle)

end

theorem sendStart_waits (env : Env) (s : Send) :
    ∃ s', sendStart env s = (s', [s'.packet]) ∧ s'.Waits ∧
      ∀ retry, sendReact env (fun _ => none) retry s' (.ok crc) = s'.done (some .inval) := by
  rw [sendStart]
  split
  · exact ⟨_, rfl, sendLast_waits .., fun _ => rfl⟩
  · exact ⟨_, rfl, sendLast_waits .., fun _ => rfl⟩
  · exact ⟨_, rfl, named_waits .., fun _ => rfl⟩

/-- The receiver asks for the first packet with a `CRC`, and the sender takes that for an error. -/
theorem reaches_first_damaged {bs : List UInt8} (hbs : Damaged env bs) (hretry : 1 ≤ l.recvRetry) (s : Send) (p : η)
    (i : Nat) (row : List (List UInt8)) :
    ∃ d, l.Reaches (l.sent (sendStart env s) ⟨i, bs :: row⟩ (recvInit p)) d ∧
      d.left.1.phase = .done (some .inval) := by
  obtain ⟨e, es, he, hrecv⟩ := hbs
  obtain ⟨s', hstart, hwaits, hcrc⟩ := sendStart_waits env s
  have hstep := l.step_receiver hrecv (show (recvInit p).ret = none from rfl) s' ⟨i, row⟩
  rw [recvStep_damaged he hretry] at hstep
  have hinval := l.step_sender hwaits.returned ⟨i, row⟩ ((recvInit p).again 1) (.ok crc) []
  rw [hcrc] at hinval
  rw [hstart, sent_cons l hwaits]
  exact ⟨_, .head hstep (.head hinval (.refl _)), rfl⟩

theorem reaches_start (h : 0 < l.sendRetry) (p : η) (args : List (Option File)) :
    l.Reaches (l.start p args)
      (l.sent (sendStart env (sendInit l.sendRetry args)) (l.channel.wire 0) (recvInit p)) := by
  have hphase : (sendInit l.sendRetry args).phase = .handshake 0 := if_pos h
  have hstep := l.step_sender (show (sendInit l.sendRetry args).returned = false by rw [Send.returned, hphase])
    (l.channel.wire 0) (recvInit p) (.ok crc) []
  simp only [sendReact, hphase, show recvCmd crc (.ok crc) = none from rfl, if_true] at hstep
  exact .head hstep (.refl _)

variable {c d : Joint (Send × Wire) (Recv η) (List UInt8) Event}

theorem stopped_of_returned (hleft : c.left.1.phase = .done none) (hright : c.right.ret = some none) :
    Stopped l.sender l.receiver c := by
  apply stopped_of_halted
  · show c.left.1.returned = true
    rw [Send.returned, hleft]
  · show c.right.ret.isSome = true
    rw [hright]
    rfl

section

variable {P : Joint (Send × Wire) (Recv η) (List UInt8) Event → Prop}
  (hP : ∀ c, P c → c.left.1.phase = .done none ∧ c.right.ret = some none)

include hP

theorem not_always_of_failed (h : l.Reaches c d)
    (hd : Cancelled d ∨ ∃ e, d.left.1.phase = .done (some e)) : ¬ Always l.sender l.receiver c P := by
  apply not_always_of_runs h
  intro k t ht hPt
  obtain ⟨hleft, hright⟩ := hP t hPt
  rcases hd with ⟨e, he⟩ | ⟨e, he⟩
  · rw [ht.right_of_halted (show d.right.ret.isSome = true by rw [he]; rfl), he] at hright
    exact nomatch hright
  · rw [ht.left_of_halted (show d.left.1.returned = true by rw [Send.returned, he]), he] at hleft
    exact nomatch hleft

theorem not_always_of_no_retry (h : ¬ 0 < l.sendRetry) (p : η)
    (args : List (Option File)) : ¬ Always l.sender l.receiver (l.start p args) P :=
  l.not_always_of_failed hP (.refl _) (.inr ⟨.timedout, if_neg h⟩)

end

theorem Delivered.returned {p : η} {fs : List Regular} (c : Joint (Send × Wire) (Recv η) (List UInt8) Event)
    (h : l.Delivered p fs c) : c.left.1.phase = .done none ∧ c.right.ret = some none := ⟨h.1, h.2.1⟩

/-- A session over a channel that damages no more copies of a packet in a row than the receiver has retries delivers
every file exactly if the sender waits for a reply at all, the first packet arrives intact, and no name and first data
packet together use up the retries. -/
theorem always_delivered_iff (fs : List Regular) (p : η)
    (hrows : ∀ i, ((l.channel.rows i).length : Int) ≤ l.recvRetry) :
    Always l.sender l.receiver (l.start p (fs.map fun f => some f.toFile)) (l.Delivered p fs) ↔
      0 < l.sendRetry ∧ l.channel.rows 0 = [] ∧ l.channel.Tolerable l.recvRetry 0 fs := by
  by_cases hretry : 0 < l.sendRetry
  · have hstart := l.reaches_start hretry p (fs.map fun f => some f.toFile)
    cases hrow : l.channel.rows 0 with
    | cons bs row =>
      have hle := hrows 0
      rw [hrow, length_cons] at hle
      rw [Channel.wire, hrow] at hstart
      have hbs := l.channel.damaged 0 bs (by rw [hrow]; exact mem_cons_self)
      obtain ⟨d, hd, hinval⟩ := l.reaches_first_damaged hbs
        (by omega) (sendInit l.sendRetry (fs.map fun f => some f.toFile)) p 0 row
      exact iff_of_false (l.not_always_of_failed (Delivered.returned l) (hstart.trans hd) (.inr ⟨_, hinval⟩))
        (fun h => nomatch h.2.1)
    | nil =>
      have hready : l.Ready (recvInit p) 0 := ⟨rfl, rfl, rfl, fun h => absurd hrow h⟩
      by_cases htol : l.channel.Tolerable l.recvRetry 0 fs
      · have hmax : max l.recvRetry 0 = l.recvRetry := Int.max_eq_left (Int.le_trans (Int.natCast_nonneg _) (hrows 0))
        obtain ⟨d, hd, hdelivered⟩ := l.reaches_delivered
          (show (sendInit l.sendRetry (fs.map fun f => some f.toFile)).args = _ from rfl) hready
          (fun j => Int.le_trans (hrows j) (Int.le_max_left ..)) (by rwa [hmax])
        have hstopped := l.stopped_of_returned hdelivered.1 hdelivered.2.1
        exact iff_of_true ((always_iff_of_runs (hstart.trans hd) hstopped).mpr hdelivered) ⟨hretry, rfl, htol⟩
      · obtain ⟨d, hd, hc⟩ := l.reaches_cancelled
          (show (sendInit l.sendRetry (fs.map fun f => some f.toFile)).args = _ from rfl) hready hrows htol
        exact iff_of_false (l.not_always_of_failed (Delivered.returned l) (hstart.trans hd) (.inl hc))
          (fun h => htol h.2.2)
  · exact iff_of_false (l.not_always_of_no_retry (Delivered.returned l) hretry p _) (fun h => hretry h.1)

end Link

def Channel.once (env : Env) (i : Nat) : Channel env where
  rows := fun j => if j = i then [[0]] else []
  damaged := by
    intro j bs hbs
    split at hbs
    · rw [mem_singleton.mp hbs]
      exact ⟨.badmsg, [], .inr rfl, rfl⟩
    · exact absurd hbs not_mem_nil

theorem Channel.length_once (env : Env) (i j : Nat) : ((Channel.once env i).rows j).length ≤ 1 := by
  simp only [Channel.once]
  split <;> decide

def Link.logged (env : Env) (C : Channel env) : Link env (List Call) := ⟨C, 100, 100, .log, fun _ _ => rfl⟩

def Regular.abc : Regular := ⟨⟨[97], [97, 98, 99]⟩, by decide, by decide, by decide⟩

theorem Link.always_delivered_once :
    (∀ i, (((Channel.once .plain 1).rows i).length : Int) ≤ 100) ∧
      Always (Link.logged .plain (.once .plain 1)).sender (Link.logged .plain (.once .plain 1)).receiver
        ((Link.logged .plain (.once .plain 1)).start [] [some Regular.abc.toFile])
        ((Link.logged .plain (.once .plain 1)).Delivered [] [.abc]) := by
  have hrows : ∀ i, (((Channel.once .plain 1).rows i).length : Int) ≤ 100 := fun i => by
    have := Channel.length_once .plain 1 i
    omega
  exact ⟨hrows, ((Link.logged .plain (.once .plain 1)).always_delivered_iff [.abc] [] hrows).mpr
    ⟨by decide, rfl, by decide, trivial⟩⟩

/-- The first packet is damaged once, with a hundred retries left. -/
theorem Link.not_delivered_first :
    (∀ i, (((Channel.once .plain 0).rows i).length : Int) ≤ 100) ∧
      ¬ Always (Link.logged .plain (.once .plain 0)).sender (Link.logged .plain (.once .plain 0)).receiver
        ((Link.logged .plain (.once .plain 0)).start [] [some Regular.abc.toFile])
        ((Link.logged .plain (.once .plain 0)).Delivered [] [.abc]) := by
  refine ⟨fun i => by have := Channel.length_once .plain 0 i; omega, ?_⟩
  have hstart := (Link.logged .plain (.once .plain 0)).reaches_start (by decide) [] [some Regular.abc.toFile]
  obtain ⟨d, hd, hinval⟩ := (Link.logged .plain (.once .plain 0)).reaches_first_damaged
    (show Damaged .plain [0] from ⟨.badmsg, [], .inr rfl, rfl⟩) (by decide)
    (sendInit 100 [some Regular.abc.toFile]) [] 0 []
  exact Link.not_always_of_failed _ (Link.Delivered.returned _) (hstart.trans hd) (.inr ⟨_, hinval⟩)

end NuttxApps.Ymodem
