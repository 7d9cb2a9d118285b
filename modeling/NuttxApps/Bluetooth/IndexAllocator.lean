import NuttxApps.Framework.Replay
import Mathlib.Algebra.GroupWithZero.Nat

/-!
# The index allocator

A bitmap has a bit for each live identifier. `index_alloc` searches from `id_next` on, around the end, and `index_free`
may move `id_next` back. `indexAlloc_fresh`: behind all calls that free live identifiers only, the search ends with one
that is not live, or all are.
-/

namespace NuttxApps.Bluetooth

open Replay
open List

/-- `index_allocator_t`; `id_next` has eight bits. -/
structure IndexAllocator where
  (idMax idNext : Nat)
  idMap : List (BitVec 32)

def indexAllocatorCreate (max : Nat) : IndexAllocator := ⟨max, 0, replicate ((max / 32 + 1) % 256) 0⟩

def used (map : List (BitVec 32)) (id : Nat) : Bool := map.getD (id >>> 5) 0 &&& 1#32 <<< (id &&& 31) ≠ 0

/-- The loop of `index_alloc`, with fuel: the identifier, `none` for `-1`, or `none` while it is still running. -/
def allocLoop (start : Nat) : Nat → IndexAllocator → Option (Option Nat × IndexAllocator)
  | 0, _ => none
  | fuel + 1, a =>
    let minor := a.idNext
    let a := { a with idNext := if a.idNext ≥ a.idMax then 0 else (a.idNext + 1) % 256 }
    if used a.idMap minor then if a.idNext ≠ start then allocLoop start fuel a else some (none, a)
    else some (some minor, { a with idMap := a.idMap.modify (minor >>> 5) (· ||| 1#32 <<< (minor &&& 31)) })

def indexAlloc (a : IndexAllocator) : Option (Option Nat × IndexAllocator) := allocLoop a.idNext 256 a

/-- `index_free`; `none` where its assertion fails. -/
def indexFree (a : IndexAllocator) (id : Nat) : Option IndexAllocator :=
  if used a.idMap id then
    some { a with
      idNext := if id < a.idNext then id % 256 else a.idNext
      idMap := a.idMap.modify (id >>> 5) (· &&& ~~~(1#32 <<< (id &&& 31))) }
  else none

inductive IndexCall
  | alloc
  | free (id : Nat)

/-- The allocator, and the identifiers that it has returned and that `index_free` was not called with since. -/
structure Pool where
  allocator : IndexAllocator
  live : List Nat

def Pool.step (s : Pool) : IndexCall → Pool
  | .alloc =>
    match indexAlloc s.allocator with
    | some (some id, a) => ⟨a, id :: s.live⟩
    | some (none, a) => ⟨a, s.live⟩
    | none => s
  | .free id => ⟨(indexFree s.allocator id).getD s.allocator, s.live.filter (· ≠ id)⟩

def Pool.init (max : Nat) : Pool := ⟨indexAllocatorCreate max, []⟩

/-- `index_alloc` returns an identifier that is not live, or `-1` exactly if all are. -/
def Pool.AllocsFresh (max : Nat) (s : Pool) : Prop :=
  ∃ r a, indexAlloc s.allocator = some (r, a) ∧ (∀ id, r = some id → id ≤ max ∧ id ∉ s.live) ∧
    (r = none ↔ ∀ id ≤ max, id ∈ s.live)

def FreesLive (s : Pool) (c : IndexCall) : Prop := ∀ id, c = .free id → id ∈ s.live

section

variable {map : List (BitVec 32)} {id max : Nat}

theorem used_eq (map : List (BitVec 32)) (id : Nat) : used map id = (map.getD (id / 32) 0).getLsbD (id % 32) := by
  have hlt : id % 32 < 32 := Nat.mod_lt _ (by decide)
  have hne : BitVec.twoPow 32 (id % 32) ≠ 0#32 := by
    intro h
    have := congrArg (·.getLsbD (id % 32)) h
    simp [hlt] at this
  have hmod : id &&& 31 = id % 32 := Nat.and_two_pow_sub_one_eq_mod id 5
  rw [used, Nat.shiftRight_eq_div_pow, hmod, ← BitVec.twoPow_eq, BitVec.and_twoPow]
  cases (map.getD (id / 2 ^ 5) 0).getLsbD (id % 32) <;> simp [hne]

theorem used_modify {f : BitVec 32 → BitVec 32} {b : Bool} (hid : id / 32 < map.length)
    (hf : ∀ w, ∀ k < 32, (f w).getLsbD k = if k = id % 32 then b else w.getLsbD k) (j : Nat) :
    used (map.modify (id >>> 5) f) j = if j = id then b else used map j := by
  have hlt : j % 32 < 32 := Nat.mod_lt _ (by decide)
  rw [used_eq, used_eq, Nat.shiftRight_eq_div_pow, getD_eq_getElem?_getD, getD_eq_getElem?_getD,
    getElem?_modify]
  by_cases hword : id / 32 = j / 32
  · rw [← hword, getElem?_eq_getElem hid]
    simp only [Option.map_eq_map, Option.map_some, Option.getD_some, if_true, hf _ _ hlt]
    exact if_congr (by omega) rfl rfl
  · have hne : j ≠ id := fun h => hword (h ▸ rfl)
    simp [hne, hword]

theorem used_set (hid : id / 32 < map.length) (j : Nat) :
    used (map.modify (id >>> 5) (· ||| 1#32 <<< (id &&& 31))) j = if j = id then true else used map j := by
  refine used_modify hid (fun w k hk => ?_) j
  rw [Nat.and_two_pow_sub_one_eq_mod id 5, ← BitVec.twoPow_eq]
  rw [BitVec.getLsbD_or, BitVec.getLsbD_twoPow]
  split <;> simp_all [eq_comm]

theorem used_clear (hid : id / 32 < map.length) (j : Nat) :
    used (map.modify (id >>> 5) (· &&& ~~~(1#32 <<< (id &&& 31)))) j = if j = id then false else used map j := by
  refine used_modify hid (fun w k hk => ?_) j
  rw [Nat.and_two_pow_sub_one_eq_mod id 5, ← BitVec.twoPow_eq]
  rw [BitVec.getLsbD_and, BitVec.getLsbD_not, BitVec.getLsbD_twoPow]
  split <;> simp_all [eq_comm]

end

/-- The identifiers from `start` around the end up to `next`, where the search is. -/
def Passed (start next id : Nat) : Prop :=
  start ≤ id ∧ id < next ∨ next < start ∧ (start ≤ id ∨ id < next)

theorem allocLoop_spec {max start fuel : Nat} {a : IndexAllocator} (hmax : max ≤ 255) (hid : a.idMax = max)
    (hnext : a.idNext ≤ max) (hstart : start ≤ max) (hpassed : ∀ id ≤ max, Passed start a.idNext id → used a.idMap id)
    (hfuel : (if a.idNext < start then start - a.idNext else max + 1 - a.idNext + start) ≤ fuel) :
    ∃ next ≤ max, (∃ id ≤ max, used a.idMap id = false ∧ allocLoop start fuel a = some (some id,
        { a with idNext := next, idMap := a.idMap.modify (id >>> 5) (· ||| 1#32 <<< (id &&& 31)) })) ∨
      (∀ id ≤ max, used a.idMap id) ∧ allocLoop start fuel a = some (none, { a with idNext := next }) := by
  induction fuel generalizing a with
  | zero => split at hfuel <;> omega
  | succ fuel ih =>
    obtain ⟨next, hn⟩ : ∃ next, (if a.idNext ≥ a.idMax then 0 else (a.idNext + 1) % 256) = next := ⟨_, rfl⟩
    have hle : next ≤ max := by split at hn <;> omega
    rw [allocLoop, hn]
    dsimp only
    split
    · rename_i hused
      have hpassed' : ∀ id ≤ max, Passed start next id ∨ next = start → used a.idMap id := by
        intro id hle' h
        by_cases heq : id = a.idNext
        · rw [heq, hused]
        · refine hpassed id hle' ?_
          rw [Passed] at h ⊢
          split at hn <;> omega
      split
      · rename_i hne
        refine ih (a := { a with idNext := next }) hid hle (fun id hle' h => hpassed' id hle' (.inl h)) ?_
        dsimp only
        split at hn <;> split at hfuel <;> split <;> omega
      · rename_i heq
        exact ⟨next, hle, .inr ⟨fun id hle' => hpassed' id hle' (.inr (not_not.mp heq)), rfl⟩⟩
    · rename_i hfree
      exact ⟨next, hle, .inl ⟨a.idNext, hnext, by simpa using hfree, rfl⟩⟩

structure Pool.Inv (max : Nat) (s : Pool) : Prop where
  idMax : s.allocator.idMax = max
  idNext : s.allocator.idNext ≤ max
  length : s.allocator.idMap.length = max / 32 + 1
  used_iff : ∀ id ≤ max, used s.allocator.idMap id = true ↔ id ∈ s.live
  le : ∀ id ∈ s.live, id ≤ max

section

variable {max : Nat} {s : Pool} (hmax : max ≤ 255)

include hmax

theorem Pool.Inv.alloc (h : s.Inv max) :
    ∃ r a, indexAlloc s.allocator = some (r, a) ∧ (∀ id, r = some id → id ≤ max ∧ id ∉ s.live) ∧
      (r = none ↔ ∀ id ≤ max, id ∈ s.live) ∧ Pool.Inv max ⟨a, r.elim s.live (· :: s.live)⟩ := by
  have hpassed : ∀ id ≤ max, Passed s.allocator.idNext s.allocator.idNext id → used s.allocator.idMap id := by
    intro id _ hp
    rw [Passed] at hp
    omega
  have hfuel : (if s.allocator.idNext < s.allocator.idNext then s.allocator.idNext - s.allocator.idNext
      else max + 1 - s.allocator.idNext + s.allocator.idNext) ≤ 256 := by
    have := h.idNext
    split <;> omega
  obtain ⟨next, hle, ⟨id, hid, hfree, heq⟩ | ⟨hall, heq⟩⟩ := allocLoop_spec hmax h.idMax h.idNext h.idNext hpassed hfuel
  · have hlive : id ∉ s.live := fun hmem => by
      rw [(h.used_iff id hid).mpr hmem] at hfree
      cases hfree
    refine ⟨_, _, heq, ?_, ⟨nofun, fun h => absurd (h id hid) hlive⟩, ?_⟩
    · rintro _ ⟨⟩
      exact ⟨hid, hlive⟩
    · refine ⟨h.idMax, hle, by simpa using h.length, fun j hj => ?_, ?_⟩
      · rw [used_set (by rw [h.length]; omega)]
        simpa using or_congr_right (h.used_iff j hj)
      · exact forall_mem_cons.mpr ⟨hid, h.le⟩
  · refine ⟨_, _, heq, nofun, ⟨fun _ id hid => (h.used_iff id hid).mp (hall id hid), fun _ => rfl⟩, ?_⟩
    exact ⟨h.idMax, hle, h.length, h.used_iff, h.le⟩

theorem Pool.Inv.step {c : IndexCall} (h : s.Inv max) (hc : FreesLive s c) : (s.step c).Inv max := by
  cases c with
  | alloc =>
    obtain ⟨r, a, heq, -, -, hinv⟩ := h.alloc hmax
    rw [Pool.step, heq]
    cases r <;> exact hinv
  | free id =>
    have hlive := hc id rfl
    have hid := h.le id hlive
    rw [Pool.step, indexFree, if_pos ((h.used_iff id hid).mpr hlive), Option.getD_some]
    refine ⟨h.idMax, ?_, by simpa using h.length, fun j hj => ?_, fun j hj => h.le j (mem_of_mem_filter hj)⟩
    · have := h.idNext
      dsimp only
      split <;> omega
    · rw [used_clear (by rw [h.length]; omega)]
      simpa [and_comm] using and_congr_right fun _ : ¬ j = id => h.used_iff j hj

theorem Pool.inv_init : (Pool.init max).Inv max := by
  refine ⟨rfl, Nat.zero_le _, ?_, fun id hid => ?_, nofun⟩
  · simp only [Pool.init, indexAllocatorCreate, length_replicate]
    omega
  · have hword : id / 32 < (max / 32 + 1) % 256 := by omega
    rw [used_eq]
    simp [Pool.init, indexAllocatorCreate, hword]

end

/-- Behind every sequence of calls that free live identifiers only, `index_alloc` does what it should. -/
theorem indexAlloc_fresh (max : Nat) (hmax : max ≤ 255) (calls : List IndexCall)
    (h : Guarded Pool.step FreesLive (.init max) calls) : (replay Pool.step (.init max) calls).AllocsFresh max := by
  have hinv := along_of_guarded (I := Pool.Inv max) (fun s c hs hc => hs.step hmax hc) (Pool.inv_init hmax) h
    calls.length
  rw [List.take_length] at hinv
  obtain ⟨r, a, heq, hfresh, hnone, -⟩ := hinv.alloc hmax
  exact ⟨r, a, heq, hfresh, hnone⟩

theorem indexAlloc_fresh_freed : (replay Pool.step (.init 1) [.alloc, .alloc, .free 0]).AllocsFresh 1 :=
  indexAlloc_fresh 1 (by decide) [.alloc, .alloc, .free 0] ⟨nofun, nofun, by rintro _ ⟨⟩; decide, trivial⟩

end NuttxApps.Bluetooth
