import NuttxApps.Framework.Replay
import NuttxApps.Media.Parcel

/-!
# The capacity of media parcels

A receiver reads the header and the data of a parcel through one offset: at the end of the header the chunk is asked to
grow by the length that it declares, which it already has as its own: from 2³¹ on the sum wraps on a target of 32 bits.
A call that fails for want of memory leaves the header behind, and the next one stores the data without asking again.
`stores_within`: with neither of these, the chunk has room for all data.
-/

namespace NuttxApps.Media

open Bytes Replay
open Libc (Target)

structure Receiver where
  parcel : Parcel
  offset : Nat
  received : List Parcel

def Receiver.next (r : Receiver) : Receiver := ⟨init r.parcel, 0, r.received ++ [r.parcel]⟩

/-- A receiver in a call of `media_parcel_recv`, with its `len`. -/
structure Conn extends Receiver where
  len : Nat

def Receiver.call (r : Receiver) : Conn := { r with len := (8 + r.parcel.len) % 2 ^ 32 }

/-- The test of the loop. At the end `media_server_receive` calls again with a new parcel. -/
def Conn.test (c : Conn) : Conn := if c.offset = c.len then c.toReceiver.next.call else c

def Conn.want (c : Conn) : Nat := if c.offset < 8 then 8 - c.offset else (2 ^ 32 - c.offset + c.len) % 2 ^ 32

section

variable (M : Machine)

/-- `media_parcel_recv` from one result of `recv` to the next. Nothing for `-EAGAIN`: the call is made again, as after
`-ENOMEM`. -/
def recvStep (c : Conn) (got : List UInt8) : Conn :=
  if got = [] then c.toReceiver.call.test
  else
    let parcel := c.parcel.write c.offset got
    let offset := (c.offset + got.length) % 2 ^ 32
    if offset = 8 then
      match grow M parcel 0 parcel.len with
      | none => ({ c with parcel := parcel, offset := offset } : Receiver).call.test
      | some parcel => Conn.test ⟨⟨parcel, offset, c.received⟩, (8 + parcel.len) % 2 ^ 32⟩
    else Conn.test ⟨⟨parcel, offset, c.received⟩, c.len⟩

section

variable (p : Parcel) (offset : Nat)

def expected : Nat :=
  if offset < 8 then 8 - offset else (M.target.size - offset + (8 + p.len)) % M.target.size

def recvfrom (buf : List UInt8) : Option Nat × Parcel × Nat :=
  let n := expected M p offset
  if n ≤ buf.length then
    let p := p.write offset (buf.take n)
    let offset := (offset + n) % M.target.size
    if offset = 8 then
      match grow M p 0 p.len with
      | none => (none, p, offset)
      | some p => (some n, p, offset)
    else (some n, p, offset)
  else (some buf.length, p.write offset buf, (offset + buf.length) % M.target.size)

end

/-- A call of `media_parcel_recvfrom`, and the bytes it has taken. -/
def feedStep (r : Receiver) (buf : List UInt8) : Receiver × Nat :=
  match recvfrom M r.parcel r.offset buf with
  | (ret, p, offset) =>
    let r' : Receiver := { r with parcel := p, offset := offset }
    (if offset = 8 + p.len then r'.next else r', ret.getD 0)

end

structure Fresh (p : Parcel) : Prop where
  length : p.mem.length = 8 + 256
  cap : p.cap = 256
  zero : p.mem[7]? = some 0

variable {M : Machine} {p p' : Parcel} {offset : Nat} {r : Receiver}

theorem Fresh.write (h : Fresh p) {bytes : List UInt8} (hlt : offset + bytes.length < 8) :
    Fresh (p.write offset bytes) := by
  refine ⟨?_, ?_, ?_⟩
  · rw [mem_write, length_splice, h.length]
  · rw [cap_write, h.cap]
  · rw [mem_write, getElem?_splice, if_neg (by omega), h.zero]

theorem fresh_init (p : Parcel) : Fresh (init p) := ⟨length_mem_init p, rfl, by rw [mem_init]; rfl⟩

theorem Fresh.len_lt (h : Fresh p) : p.len < 2 ^ 24 := by
  have hbytes : (p.mem.drop 4).take 4 = (p.mem.drop 4).take 3 ++ [0] := by
    rw [List.take_add_one, List.getElem?_drop, h.zero]
    rfl
  have hlt := le_lt ((p.mem.drop 4).take 3)
  have hpow : 256 ^ ((p.mem.drop 4).take 3).length ≤ 256 ^ 3 :=
    Nat.pow_le_pow_right (by decide) (List.length_take_le ..)
  rw [Parcel.len, field, hbytes, le_append, show le [0] = 0 from rfl]
  omega

def Conn.LenOk (c : Conn) : Prop := (c.offset < 8 → 8 ≤ c.len) ∧ (8 ≤ c.offset → c.len = 8 + c.parcel.len)

theorem Fresh.lenOk_call (h : Fresh r.parcel) (hoffset : r.offset < 8) : r.call.LenOk := by
  have hlt := h.len_lt
  refine ⟨fun _ => ?_, fun hge => absurd hge (Nat.not_le_of_lt hoffset)⟩
  show 8 ≤ (8 + r.parcel.len) % 2 ^ 32
  omega

def start (p : Parcel) : Receiver := ⟨init p, 0, []⟩

def plenty (t : Target) : Machine where
  target := t
  malloc n := some (List.replicate n 0)
  length_malloc n mem h := by rw [← Option.some.inj h, List.length_replicate]

def blank : Parcel := ⟨List.replicate (8 + 256) 0, none, 0, 0, List.length_replicate⟩

/-- The chunk has the capacity for so many bytes of data, and the memory for its capacity. -/
def Holds (p : Parcel) (n : Nat) : Prop := n ≤ p.cap ∧ 8 + p.cap ≤ p.mem.length

instance (p : Parcel) (n : Nat) : Decidable (Holds p n) := inferInstanceAs (Decidable (_ ∧ _))

/-- A declared length whose double does not wrap. -/
def Small (n : Nat) : Prop := 8 + 2 * n < 2 ^ 32

instance (n : Nat) : Decidable (Small n) := inferInstanceAs (Decidable (_ < _))

section

variable (p : Parcel) (a : Machine × List UInt8)

def appendStep : Parcel := (append a.1 p a.2).getD p

/-- The length does not wrap, and the capacity that the chunk gets has a size. -/
def AppendFine : Prop :=
  p.len + a.2.length < 2 ^ 32 ∧ 8 + capacity p.cap (p.len + a.2.length) < a.1.target.size

def AppendWithin : Prop :=
  a.2 ≠ [] → ∀ p', grow a.1 p p.len a.2.length = some p' → Holds p' (p.len + a.2.length)

end

instance (p : Parcel) (a : Machine × List UInt8) : Decidable (AppendFine p a) := inferInstanceAs (Decidable (_ ∧ _))

theorem Built.within {body : List UInt8} (h : Built p body) (a : Machine × List UInt8) (hfine : AppendFine p a) :
    AppendWithin p a ∧ ∃ body', Built (appendStep p a) body' := by
  have hgrown : ∀ p', Media.grow a.1 p p.len a.2.length = some p' →
      Built p' body ∧ p'.cap = capacity p.cap (body.length + a.2.length) := by
    rw [AppendFine, h.len] at hfine
    exact fun p' hp' => h.grow hp' hfine.1 hfine.2
  have hle := (le_capacity p.cap (body.length + a.2.length)).2
  constructor
  · intro hne p' hp'
    obtain ⟨hbuilt, hcap⟩ := hgrown p' hp'
    exact ⟨by rw [hcap, h.len]; exact hle, le_of_eq hbuilt.room.symm⟩
  · rw [appendStep, Media.append]
    split_ifs with hnil
    · exact ⟨body, h⟩
    · rcases hp' : Media.grow a.1 p p.len a.2.length with _ | p'
      · exact ⟨body, h⟩
      · obtain ⟨hbuilt, hcap⟩ := hgrown p' hp'
        exact ⟨_, hbuilt.store (hcap ▸ hle)⟩

theorem len_write (hoffset : 8 ≤ offset) (p : Parcel) (bytes : List UInt8) : (p.write offset bytes).len = p.len := by
  rw [Parcel.len, mem_write]
  refine field_congr fun i _ hi => ?_
  rw [getElem?_splice, if_neg (by omega)]

theorem holds_of_header (hlen : p.mem.length = 8 + 256) (hcap : p.cap = 256) (hsmall : Small p.len)
    (hgrow : grow M p 0 p.len = some p') : Holds p' p'.len ∧ Small p'.len := by
  have hsize := M.target.le_size
  rw [Small] at hsmall
  have hgrown := of_grow hgrow (by omega) (by omega) (by omega) (Nat.zero_le _)
    (by rw [hcap, capacity]; split_ifs <;> omega)
  have hsame : p'.len = p.len := field_of_take (Nat.le_refl 8) hgrown.bytes (by decide)
  have hle := (le_capacity p.cap (p.len + p.len)).2
  have hcap' := hgrown.cap
  rw [Nat.mod_eq_of_lt (capacity_lt (by omega) (by omega))] at hcap'
  rw [hsame]
  exact ⟨⟨by omega, le_of_eq (by rw [hgrown.room, hcap'])⟩, hsmall⟩

/-- What a receiver keeps: a fresh chunk up to the end of the header, and then one with room for what it declares. -/
structure Roomy (r : Receiver) : Prop where
  fresh : r.offset < 8 → Fresh r.parcel
  holds : 8 ≤ r.offset → Holds r.parcel r.parcel.len ∧ Small r.parcel.len
  offset_le : 8 ≤ r.offset → r.offset ≤ 8 + r.parcel.len

def HeaderGrows (M : Machine) (p : Parcel) : Prop := Small p.len ∧ (grow M p 0 p.len).isSome

instance (M : Machine) (p : Parcel) : Decidable (HeaderGrows M p) := inferInstanceAs (Decidable (_ ∧ _))

variable {c : Conn} {bytes : List UInt8}

theorem roomy_init (p : Parcel) (received : List Parcel) : Roomy ⟨init p, 0, received⟩ :=
  ⟨fun _ => fresh_init p, fun h => absurd h (Nat.not_succ_le_zero 7), fun h => absurd h (Nat.not_succ_le_zero 7)⟩

theorem Roomy.write (h : Roomy r) (hhead : r.offset < 8 → r.offset + bytes.length < 8)
    (hbody : 8 ≤ r.offset → r.offset + bytes.length ≤ 8 + r.parcel.len) :
    Roomy ⟨r.parcel.write r.offset bytes, r.offset + bytes.length, r.received⟩ := by
  refine ⟨fun hlt => ?_, fun hge => ?_, fun hge => ?_⟩
  · have hlt : r.offset + bytes.length < 8 := hlt
    exact (h.fresh (by omega)).write hlt
  all_goals
    have hge : 8 ≤ r.offset := by
      rcases lt_or_ge r.offset 8 with hlt | hge'
      · exact absurd hge (Nat.not_le_of_lt (hhead hlt))
      · exact hge'
    rw [len_write hge]
  · obtain ⟨⟨hcap, hroom⟩, hsmall⟩ := h.holds hge
    rw [Holds, cap_write, mem_write, length_splice]
    exact ⟨⟨hcap, hroom⟩, hsmall⟩
  · exact hbody hge

theorem Roomy.header (h : Roomy r) (hlt : r.offset < 8) (hgrows : HeaderGrows M (r.parcel.write r.offset bytes)) :
    ∃ p', grow M (r.parcel.write r.offset bytes) 0 (r.parcel.write r.offset bytes).len = some p' ∧
      Roomy ⟨p', 8, r.received⟩ := by
  obtain ⟨p', hp'⟩ := Option.isSome_iff_exists.mp hgrows.2
  have hfresh := h.fresh hlt
  have hholds := holds_of_header (by rw [mem_write, length_splice, hfresh.length]) (by rw [cap_write, hfresh.cap])
    hgrows.1 hp'
  exact ⟨p', hp', fun h => absurd h (lt_irrefl 8), fun _ => hholds, fun _ => Nat.le_add_right ..⟩

section

variable (c : Conn) (i : Machine × List UInt8)

def recvItem : Conn := recvStep i.1 c i.2

/-- `recv` has returned no more than it was asked for, and a header that is complete now makes the chunk grow. -/
def RecvFine : Prop :=
  i.2.length ≤ c.want ∧ (c.offset + i.2.length = 8 → HeaderGrows i.1 (c.parcel.write c.offset i.2))

instance (c : Conn) (i : Machine × List UInt8) : Decidable (RecvFine c i) :=
  inferInstanceAs (Decidable (_ ∧ (_ → _)))

def RecvWithin : Prop :=
  i.2 ≠ [] → 8 ≤ c.offset → Holds c.parcel c.parcel.len

end

instance (c : Conn) (i : Machine × List UInt8) : Decidable (RecvWithin c i) := inferInstanceAs (Decidable (_ → _ → _))

theorem Roomy.small (h : Roomy r) (hge : 8 ≤ r.offset) : 8 + 2 * r.parcel.len < 2 ^ 32 := (h.holds hge).2

theorem Roomy.lenOk_call (h : Roomy r) : r.call.LenOk := by
  refine ⟨fun hlt => ((h.fresh hlt).lenOk_call hlt).1 hlt, fun hge => ?_⟩
  have hsmall := h.small hge
  show (8 + r.parcel.len) % 2 ^ 32 = 8 + r.parcel.len
  omega

variable {i : Machine × List UInt8}

section

variable (h : Roomy c.toReceiver) (hlen : c.LenOk)

include h hlen

theorem Roomy.test : Roomy c.test.toReceiver ∧ c.test.LenOk := by
  rw [Conn.test]
  split_ifs
  · exact ⟨roomy_init .., (roomy_init ..).lenOk_call⟩
  · exact ⟨h, hlen⟩

theorem Roomy.want_le :
    (c.offset < 8 → c.offset + c.want ≤ 8) ∧ (8 ≤ c.offset → c.offset + c.want ≤ 8 + c.parcel.len) := by
  rw [Conn.want]
  refine ⟨fun hlt => ?_, fun hge => ?_⟩
  · rw [if_pos hlt]
    omega
  · have hle := h.offset_le hge
    have hsmall := h.small hge
    rw [if_neg (by omega), hlen.2 hge]
    omega

theorem recvItem_roomy (hfine : RecvFine c i) : Roomy (recvItem c i).toReceiver ∧ (recvItem c i).LenOk := by
  obtain ⟨M, bytes⟩ := i
  obtain ⟨hwant, hgrows⟩ := hfine
  obtain ⟨hhead, hbody⟩ := h.want_le hlen
  dsimp only at hwant hgrows
  have hlt : c.offset + bytes.length < 2 ^ 32 := by
    rcases lt_or_ge c.offset 8 with hlt | hge
    · have := hhead hlt
      omega
    · have := hbody hge
      have hsmall := h.small hge
      omega
  rw [recvItem, recvStep]
  dsimp only
  rw [Nat.mod_eq_of_lt hlt]
  split_ifs with hnil hend
  · exact Roomy.test (c := c.toReceiver.call) h h.lenOk_call
  · have hpos : 0 < bytes.length := List.length_pos_of_ne_nil hnil
    obtain ⟨p', hp', hroomy⟩ := h.header (show c.offset < 8 by omega) (hgrows hend)
    rw [hp', hend]
    exact hroomy.test hroomy.lenOk_call
  · have hwrite : Roomy ⟨c.parcel.write c.offset bytes, c.offset + bytes.length, c.received⟩ :=
      h.write (fun hlt => by have := hhead hlt; omega) (fun hge => by have := hbody hge; omega)
    refine Roomy.test hwrite ⟨fun hlt => hlen.1 (lt_of_le_of_lt (Nat.le_add_right ..) hlt), fun hge => ?_⟩
    have hge : 8 ≤ c.offset := by
      rcases lt_or_ge c.offset 8 with hlt | hge'
      · have := hhead hlt
        have : 8 ≤ c.offset + bytes.length := hge
        omega
      · exact hge'
    rw [hlen.2 hge, len_write hge]

end

section

variable (r : Receiver) (i : Machine × List UInt8)

def feedItem : Receiver := (feedStep i.1 r i.2).1

def FeedFine : Prop :=
  r.offset < 8 → 8 - r.offset ≤ i.2.length →
    HeaderGrows i.1 (r.parcel.write r.offset (i.2.take (8 - r.offset)))

instance (r : Receiver) (i : Machine × List UInt8) : Decidable (FeedFine r i) :=
  inferInstanceAs (Decidable (_ → _ → _))

def FeedWithin : Prop :=
  i.2 ≠ [] → 8 ≤ r.offset → Holds r.parcel r.parcel.len

end

theorem Roomy.expected_eq (h : Roomy r) (M : Machine) :
    (r.offset < 8 → expected M r.parcel r.offset = 8 - r.offset) ∧
      (8 ≤ r.offset → r.offset + expected M r.parcel r.offset = 8 + r.parcel.len) := by
  have hsize := M.target.le_size
  rw [expected]
  refine ⟨fun hlt => if_pos hlt, fun hge => ?_⟩
  have hle := h.offset_le hge
  have hsmall := h.small hge
  rw [if_neg (by omega), show M.target.size - r.offset + (8 + r.parcel.len) =
    8 + r.parcel.len - r.offset + M.target.size by omega, Nat.add_mod_right, Nat.mod_eq_of_lt (by omega)]
  omega

theorem grow_of_len_zero (h : p.len = 0) : grow M p 0 p.len = some p := by
  rw [grow, h, Nat.zero_mod, if_pos (Nat.zero_le _)]

theorem recvfrom_roomy (h : Roomy r) (hfine : FeedFine r i) :
    ∃ ret p' offset, recvfrom i.1 r.parcel r.offset i.2 = (ret, p', offset) ∧ Roomy ⟨p', offset, r.received⟩ := by
  obtain ⟨M, buf⟩ := i
  obtain ⟨hhead, hbody⟩ := h.expected_eq M
  have hlt : r.offset + expected M r.parcel r.offset < M.target.size := by
    have hsize := M.target.le_size
    rcases lt_or_ge r.offset 8 with hlt | hge
    · have := hhead hlt
      omega
    · have := hbody hge
      have hsmall := h.small hge
      omega
  rw [recvfrom]
  dsimp only
  rw [Nat.mod_eq_of_lt hlt]
  by_cases hle : expected M r.parcel r.offset ≤ buf.length
  · rw [if_pos hle]
    rcases lt_or_ge r.offset 8 with hoffset | hge
    · rw [hhead hoffset] at hle ⊢
      obtain ⟨p', hp', hroomy⟩ := h.header hoffset (hfine hoffset hle)
      rw [hp', show r.offset + (8 - r.offset) = 8 by omega]
      exact ⟨_, p', 8, rfl, hroomy⟩
    · have htake : (buf.take (expected M r.parcel r.offset)).length = expected M r.parcel r.offset :=
        List.length_take_of_le hle
      have hwrite := h.write (fun hlt => absurd hge (Nat.not_le_of_lt hlt))
        (fun _ => le_of_eq (by rw [htake]; exact hbody hge))
      rw [htake] at hwrite
      split_ifs with hend
      · -- a parcel without data is complete with its header
        rw [grow_of_len_zero (by rw [len_write hge]; have := hbody hge; omega)]
        exact ⟨_, _, _, rfl, hwrite⟩
      · exact ⟨_, _, _, rfl, hwrite⟩
  · rw [if_neg hle, Nat.mod_eq_of_lt (by omega)]
    refine ⟨_, _, _, rfl, h.write (fun hlt => ?_) (fun hge => ?_)⟩
    · have := hhead hlt
      omega
    · have := hbody hge
      omega

theorem feedItem_roomy (h : Roomy r) (hfine : FeedFine r i) : Roomy (feedItem r i) := by
  obtain ⟨ret, p', offset, hrecv, hroomy⟩ := recvfrom_roomy h hfine
  rw [feedItem, feedStep, hrecv]
  dsimp only
  split_ifs
  · exact roomy_init ..
  · exact hroomy

section

variable {σ : Type} {step : σ → Machine × List UInt8 → σ} {I : σ → Prop} {C D : σ → Machine × List UInt8 → Prop} {s : σ}

/-- With calls that keep an invariant, what follows from the invariant alone also holds for one more call. -/
theorem guarded_and_next (hstep : ∀ s i, I s → C s i → I (step s i)) (hD : ∀ s i, I s → D s i) (h₀ : I s)
    {items : List (Machine × List UInt8)} (hC : Guarded step C s items) (last : Machine × List UInt8) :
    Guarded step D s (items ++ [last]) := by
  have hend : I (replay step s items) := by
    have := (along_of_guarded hstep h₀ hC) items.length
    rwa [List.take_length] at this
  exact guarded_append.mpr ⟨guarded_of_inv hstep (fun s i hs _ => hD s i hs) h₀ hC, hD _ last hend, trivial⟩

end

/-- Data is stored within the capacity, by any appends that get a capacity with a size, and by any receiving calls
before which every header declared a small length and got its memory; the last call may fail to get it. -/
theorem stores_within (p : Parcel) (items : List (Machine × List UInt8)) :
    (Guarded appendStep AppendFine (init p) items → Guarded appendStep AppendWithin (init p) items) ∧
    (Guarded recvItem RecvFine (start p).call items →
      ∀ last, Guarded recvItem RecvWithin (start p).call (items ++ [last])) ∧
    (Guarded feedItem FeedFine (start p) items → ∀ last, Guarded feedItem FeedWithin (start p) (items ++ [last])) := by
  refine ⟨fun h => ?_, fun h => ?_, fun h => ?_⟩
  · refine guarded_of_inv (I := fun p => ∃ body, Built p body) (fun p a hp hfine => ?_) (fun p a hp hfine => ?_)
      ⟨[], built_init p⟩ h
    · obtain ⟨body, hbuilt⟩ := hp
      exact (hbuilt.within a hfine).2
    · obtain ⟨body, hbuilt⟩ := hp
      exact (hbuilt.within a hfine).1
  · exact guarded_and_next (I := fun c => Roomy c.toReceiver ∧ c.LenOk) (D := RecvWithin)
      (fun c i hc hfine => recvItem_roomy hc.1 hc.2 hfine) (fun c i hc _ hge => (hc.1.holds hge).1)
      ⟨roomy_init .., (roomy_init ..).lenOk_call⟩ h
  · exact guarded_and_next (I := Roomy) (D := FeedWithin) (fun r i hr hfine => feedItem_roomy hr hfine)
      (fun r i hr _ hge => (hr.holds hge).1) (roomy_init ..) h

def noMemory : Machine := ⟨.bits32, fun _ => none, nofun⟩

def headerFor (len : Nat) : List UInt8 := leBytes 4 1 ++ leBytes 4 len

theorem stores_within_three :
    Guarded appendStep AppendWithin (init blank) [(plenty .bits32, [1, 2, 3])] ∧
      Guarded recvItem RecvWithin (start blank).call
        [(noMemory, headerFor 3), (noMemory, [1, 2]), (noMemory, [3]), (noMemory, headerFor 1024)] ∧
      Guarded feedItem FeedWithin (start blank)
        [(noMemory, headerFor 3 ++ [1]), (noMemory, [1, 2, 3]), (noMemory, headerFor 1024)] :=
  ⟨(stores_within blank _).1 (by decide +kernel),
    (stores_within blank [(noMemory, headerFor 3), (noMemory, [1, 2]), (noMemory, [3])]).2.1 (by decide +kernel) _,
    (stores_within blank [(noMemory, headerFor 3 ++ [1]), (noMemory, [1, 2, 3])]).2.2 (by decide +kernel) _⟩

/-- A byte is stored where 2³¹ were declared, and where the growth for 1024 has failed: the chunk has room for 256. -/
theorem stored_without_room :
    (¬ Guarded recvItem RecvWithin (start blank).call [(plenty .bits32, headerFor (2 ^ 31)), (plenty .bits32, [1])]) ∧
      ¬ Guarded recvItem RecvWithin (start blank).call [(noMemory, headerFor 1024), (noMemory, [1])] := by
  decide +kernel

end NuttxApps.Media
