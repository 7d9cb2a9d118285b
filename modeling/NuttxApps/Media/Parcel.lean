import NuttxApps.Framework.Bytes
import NuttxApps.Framework.Libc

/-!
# Media parcels

A parcel is a header of a code and a length, and as many bytes of data. It starts in a chunk that is embedded in the
parcel and moves to the heap when it grows: `of_grow` says what of the memory that keeps. `Built` is what appending
keeps.
-/

namespace NuttxApps.Media

open Bytes Option
open List hiding le min max
open Libc (Target)

/-- A target, and what `malloc` and `realloc` find there: memory that holds anything, or none. -/
structure Machine where
  target : Target
  malloc : Nat → Option (List UInt8)
  length_malloc : ∀ n mem, malloc n = some mem → mem.length = n

variable (M : Machine)

/-- `media_parcel`; `heap` is the chunk, unless it is the embedded one. -/
structure Parcel where
  prealloc : List UInt8
  heap : Option (List UInt8)
  (next cap : Nat)
  length_prealloc : prealloc.length = 8 + 256

namespace Parcel

variable (p : Parcel)

def mem : List UInt8 := p.heap.getD p.prealloc

def len : Nat := field p.mem 4 4

/-- Bytes written to the chunk; what lies behind its end is not modelled. -/
def write (offset : Nat) (bytes : List UInt8) : Parcel :=
  match p.heap with
  | none =>
    { p with
      prealloc := splice p.prealloc offset bytes
      length_prealloc := (length_splice ..).trans p.length_prealloc }
  | some mem => { p with heap := some (splice mem offset bytes) }

def kept (cursz : Nat) : List UInt8 :=
  match p.heap with
  | none => p.prealloc.take (8 + cursz)
  | some mem => mem

end Parcel

variable (p : Parcel)

def init : Parcel :=
  { ({ p with heap := none } : Parcel).write 0 (leBytes 4 0 ++ leBytes 4 0) with next := 0, cap := 256 }

/-- `media_parcel_grow`; `none` for `-ENOMEM`, which leaves the parcel as it was. -/
def grow (cursz newsz : Nat) : Option Parcel :=
  let newsz := (newsz + p.len) % M.target.size
  if newsz ≤ p.cap then some p
  else
    let newsz := if newsz ≤ 2 * p.cap % 2 ^ 32 then 2 * p.cap % 2 ^ 32 else newsz
    (M.malloc ((8 + newsz) % M.target.size)).map fun newchunk =>
      { p with heap := some (splice newchunk 0 (p.kept cursz)), cap := newsz % 2 ^ 32 }

def append (data : List UInt8) : Option Parcel :=
  if data = [] then some p
  else (grow M p p.len data.length).map fun p =>
    (p.write (8 + p.len) data).write 4 (leBytes 4 ((p.len + data.length) % 2 ^ 32))

def frame (code : Nat) (body : List UInt8) : List UInt8 := leBytes 4 code ++ leBytes 4 body.length ++ body

variable {M : Machine} {p p' : Parcel}

section

variable (p : Parcel) (offset : Nat) (bytes : List UInt8)

@[simp] theorem mem_write : (p.write offset bytes).mem = splice p.mem offset bytes := by
  unfold Parcel.write Parcel.mem
  split
  · rename_i h
    rw [h]
    rfl
  · rename_i h
    rw [h]
    rfl

@[simp] theorem cap_write : (p.write offset bytes).cap = p.cap := by
  unfold Parcel.write
  split <;> rfl

@[simp] theorem next_write : (p.write offset bytes).next = p.next := by
  unfold Parcel.write
  split <;> rfl

end

theorem mem_init (p : Parcel) : (init p).mem = leBytes 4 0 ++ leBytes 4 0 ++ p.prealloc.drop 8 := by
  have hlen := p.length_prealloc
  show splice p.prealloc 0 (leBytes 4 0 ++ leBytes 4 0) = _
  rw [splice_eq_append 0 (by simp [hlen])]
  simp

theorem length_mem_init (p : Parcel) : (init p).mem.length = 8 + 256 := by
  have hlen := p.length_prealloc
  rw [mem_init]
  simp [hlen]

theorem kept_spec {cursz : Nat} (h : 8 + cursz ≤ p.mem.length) :
    (p.kept cursz).take (8 + cursz) = p.mem.take (8 + cursz) ∧ 8 + cursz ≤ (p.kept cursz).length ∧
      (p.kept cursz).length ≤ p.mem.length := by
  unfold Parcel.mem at h ⊢
  unfold Parcel.kept
  split
  · rename_i hheap
    rw [hheap] at h ⊢
    rw [getD_none] at h ⊢
    rw [take_take, min_self, length_take]
    exact ⟨rfl, by omega, by omega⟩
  · rename_i hheap
    rw [hheap] at h ⊢
    exact ⟨rfl, h, le_rfl⟩

/-- The capacity of a chunk that had `cap` after a request for `need`. -/
def capacity (cap need : Nat) : Nat := if need ≤ cap then cap else max need (2 * cap % 2 ^ 32)

theorem le_capacity (cap need : Nat) : cap ≤ capacity cap need ∧ need ≤ capacity cap need := by
  rw [capacity]
  split_ifs <;> omega

theorem capacity_lt {cap need : Nat} (hcap : cap < 2 ^ 32) (hneed : need < 2 ^ 32) : capacity cap need < 2 ^ 32 := by
  rw [capacity]
  split_ifs <;> omega

structure Grown (p : Parcel) (cursz n : Nat) (p' : Parcel) : Prop where
  next : p'.next = p.next
  bytes : p'.mem.take (8 + cursz) = p.mem.take (8 + cursz)
  room : p'.mem.length = 8 + n
  cap : p'.cap = n % 2 ^ 32

theorem grown_of_malloc {cursz n : Nat} {newchunk : List UInt8} (hlen : newchunk.length = 8 + n)
    (hroom : p.mem.length = 8 + p.cap) (hcur : cursz ≤ p.cap) (hn : p.cap ≤ n) :
    Grown p cursz n { p with heap := some (splice newchunk 0 (p.kept cursz)), cap := n % 2 ^ 32 } := by
  have hmem : 8 + cursz ≤ p.mem.length := by omega
  obtain ⟨htake, hle, hfit⟩ := kept_spec hmem
  refine ⟨rfl, ?_, ?_, rfl⟩
  · show (splice newchunk 0 (p.kept cursz)).take (8 + cursz) = _
    rw [take_splice_zero hle (by omega), htake]
  · show (splice newchunk 0 (p.kept cursz)).length = _
    rw [length_splice, hlen]

section

variable {cursz newsz : Nat} (h : grow M p cursz newsz = some p') (hneed : newsz + p.len < M.target.size)

include h hneed

theorem of_grow_eq :
    (newsz + p.len ≤ p.cap ∧ p' = p) ∨
      p.cap < newsz + p.len ∧ ∃ newchunk, newchunk.length = (8 + capacity p.cap (newsz + p.len)) % M.target.size ∧
        p' = { p with
          heap := some (splice newchunk 0 (p.kept cursz))
          cap := capacity p.cap (newsz + p.len) % 2 ^ 32 } := by
  rw [grow, Nat.mod_eq_of_lt hneed] at h
  by_cases hle : newsz + p.len ≤ p.cap
  · rw [if_pos hle] at h
    exact .inl ⟨hle, (some.inj h).symm⟩
  · rw [if_neg hle] at h
    obtain ⟨newchunk, hnew, rfl⟩ := map_eq_some_iff.mp h
    have hcap : (if newsz + p.len ≤ 2 * p.cap % 2 ^ 32 then 2 * p.cap % 2 ^ 32 else newsz + p.len) =
        capacity p.cap (newsz + p.len) := by
      rw [capacity, if_neg hle]
      split_ifs <;> omega
    rw [hcap] at hnew
    exact .inr ⟨by omega, newchunk, M.length_malloc _ _ hnew, by rw [hcap]⟩

/-- What growing does, as long as the size of the new chunk is below what a `size_t` holds. -/
theorem of_grow (hroom : p.mem.length = 8 + p.cap) (hcap : p.cap < 2 ^ 32) (hcur : cursz ≤ p.cap)
    (hsize : 8 + capacity p.cap (newsz + p.len) < M.target.size) :
    Grown p cursz (capacity p.cap (newsz + p.len)) p' := by
  rcases of_grow_eq h hneed with ⟨hle, rfl⟩ | ⟨-, newchunk, hlen, rfl⟩
  · rw [capacity, if_pos hle]
    exact ⟨rfl, rfl, hroom, (Nat.mod_eq_of_lt hcap).symm⟩
  · rw [Nat.mod_eq_of_lt hsize] at hlen
    exact grown_of_malloc hlen hroom hcur (le_capacity ..).1

end

section

variable {code n : Nat} {body : List UInt8}

@[simp] theorem length_frame (code : Nat) (body : List UInt8) : (frame code body).length = 8 + body.length := by
  rw [frame, length_append, length_append, length_leBytes, length_leBytes]

theorem field_of_take {q : List UInt8} (hn : 8 ≤ n) (h : p.mem.take n = q.take n) {off : Nat} (hoff : off + 4 ≤ 8) :
    field p.mem off 4 = field q off 4 := by
  refine field_congr fun i _ hi => ?_
  have hi := congrArg (·[i]?) h
  simpa only [getElem?_take_of_lt (show i < n by omega)] using hi

theorem len_of_take (hn : 8 ≤ n) (h : p.mem.take n = (frame code body).take n) (hbody : body.length < 2 ^ 32) :
    p.len = body.length := by
  rw [Parcel.len, field_of_take hn h (by decide), field, frame, append_assoc,
    drop_left' (length_leBytes ..), take_left' (length_leBytes ..), le_leBytes hbody]

end

structure Built (p : Parcel) (body : List UInt8) : Prop where
  room : p.mem.length = 8 + p.cap
  fits : body.length ≤ p.cap
  cap_lt : p.cap < 2 ^ 32
  bytes : p.mem.take (8 + body.length) = frame 0 body
  next : p.next = 0

variable {body data : List UInt8}

theorem Built.len (h : Built p body) : p.len = body.length := by
  have hlt := h.cap_lt
  have hfits := h.fits
  have hbytes : p.mem.take (8 + body.length) = (frame 0 body).take (8 + body.length) := by
    rw [h.bytes, ← length_frame 0, take_length]
  exact len_of_take (Nat.le_add_right 8 _) hbytes (by omega)

theorem built_init (p : Parcel) : Built (init p) [] where
  room := length_mem_init p
  fits := Nat.zero_le _
  cap_lt := show 256 < 2 ^ 32 by decide
  bytes := by
    rw [mem_init]
    rfl
  next := rfl

theorem Built.grow (h : Built p body) (hgrow : Media.grow M p p.len data.length = some p')
    (hlt : body.length + data.length < 2 ^ 32)
    (hsize : 8 + capacity p.cap (body.length + data.length) < M.target.size) :
    Built p' body ∧ p'.cap = capacity p.cap (body.length + data.length) := by
  have hneed : data.length + p.len = body.length + data.length := by rw [h.len, Nat.add_comm]
  have htarget := M.target.le_size
  have hcapacity := le_capacity p.cap (body.length + data.length)
  have hgrown := of_grow hgrow (by omega) h.room h.cap_lt (by rw [h.len]; exact h.fits) (by rwa [hneed])
  have hcap := hgrown.cap
  rw [hneed, Nat.mod_eq_of_lt (capacity_lt h.cap_lt hlt)] at hcap
  refine ⟨⟨?_, by omega, by have := capacity_lt h.cap_lt hlt; omega, ?_, hgrown.next.trans h.next⟩, hcap⟩
  · rw [hgrown.room, hneed, hcap]
  · rw [← h.len, hgrown.bytes, h.len, h.bytes]

theorem Built.store (h : Built p body) (hroom : body.length + data.length ≤ p.cap) :
    Built ((p.write (8 + p.len) data).write 4 (leBytes 4 ((p.len + data.length) % 2 ^ 32))) (body ++ data) := by
  have hcap_lt := h.cap_lt
  obtain ⟨tail, htail⟩ : ∃ tail, p.mem = frame 0 body ++ tail :=
    ⟨p.mem.drop (8 + body.length), by rw [← h.bytes, take_append_drop]⟩
  have hlen : data.length ≤ tail.length := by
    have := congrArg List.length htail
    rw [h.room, length_append, length_frame] at this
    omega
  have hdata : splice p.mem (8 + p.len) data = frame 0 body ++ (data ++ tail.drop data.length) := by
    rw [htail, h.len, ← length_frame 0]
    conv_lhs => rw [← take_append_drop data.length tail]
    rw [splice_append _ _ (by rw [length_take]; omega)]
  have hmem : ((p.write (8 + p.len) data).write 4 (leBytes 4 ((p.len + data.length) % 2 ^ 32))).mem =
      frame 0 (body ++ data) ++ tail.drop data.length := by
    rw [mem_write, mem_write, hdata, h.len, Nat.mod_eq_of_lt (by omega), ← length_append, frame, frame,
      append_assoc (leBytes 4 0), append_assoc (leBytes 4 0), append_assoc (leBytes 4 _)]
    exact (splice_append (leBytes 4 0) _ (by rw [length_leBytes, length_leBytes])).trans (by simp)
  refine ⟨?_, by simpa using hroom, by simpa using hcap_lt, ?_, by simpa using h.next⟩
  · rw [mem_write, length_splice, mem_write, length_splice, cap_write, cap_write, h.room]
  · rw [hmem, take_left' (length_frame ..)]

variable {bytes rest : List UInt8}

end NuttxApps.Media
