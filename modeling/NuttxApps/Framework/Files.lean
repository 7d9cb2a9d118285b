import Mathlib.Data.List.Basic

/-!
# Names, files and descriptors

A directory leads from names to the numbers of files. A descriptor is the number of a file and a position in it. `Holds
fs name fd d`: `fd` stands at the end of the file `name`, which holds `d`.
-/

namespace NuttxApps.Files

open List

variable {ν : Type}

/-- The directory, the bytes of the files, and the number of the next new file. -/
structure FileSystem (ν : Type) where
  dir : ν → Option Nat
  data : Nat → List UInt8
  next : Nat
  dir_lt : ∀ name file, dir name = some file → file < next

structure Descriptor where
  (file pos : Nat)
deriving DecidableEq

/-- The bytes `d` at position `pos` of `p`; a gap in front of them is filled with zeros. -/
def overwrite (p : List UInt8) (pos : Nat) (d : List UInt8) : List UInt8 :=
  p.take pos ++ List.replicate (pos - p.length) 0 ++ d ++ p.drop (pos + d.length)

theorem overwrite_length (p d : List UInt8) : overwrite p p.length d = p ++ d := by
  simp [overwrite]

theorem overwrite_zero (p d : List UInt8) : overwrite p 0 d = d ++ p.drop d.length := by
  simp [overwrite]

theorem overwrite_append (p b d : List UInt8) : overwrite (overwrite p 0 b) b.length d = overwrite p 0 (b ++ d) := by
  rw [overwrite_zero, overwrite_zero, overwrite, take_left, drop_append, length_append]
  simp

/-- What a file holds after each of some texts was written from its start, without truncating it. -/
def layers (p : List UInt8) (cs : List (List UInt8)) : List UInt8 := cs.foldl (fun p c => overwrite p 0 c) p

theorem length_layers_le_iff {p : List UInt8} {cs : List (List UInt8)} {n : Nat} :
    (layers p cs).length ≤ n ↔ p.length ≤ n ∧ ∀ c ∈ cs, c.length ≤ n := by
  induction cs generalizing p with
  | nil => simp [layers]
  | cons c cs ih =>
    rw [layers, foldl_cons, ← layers, ih, overwrite_zero, length_append, length_drop,
      forall_mem_cons, ← and_assoc, and_congr_left_iff]
    intro _
    omega

theorem layers_concat_eq_iff {p c : List UInt8} {cs : List (List UInt8)} :
    layers p (cs ++ [c]) = c ↔ p.length ≤ c.length ∧ ∀ d ∈ cs, d.length ≤ c.length := by
  rw [layers, foldl_append, foldl_cons, foldl_nil, ← layers, overwrite_zero, append_right_eq_self,
    drop_eq_nil_iff, length_layers_le_iff]

namespace FileSystem

variable (fs : FileSystem ν)

def empty : FileSystem ν where
  dir := fun _ => none
  data := fun _ => []
  next := 0
  dir_lt := nofun

def write (fd : Descriptor) (d : List UInt8) : FileSystem ν × Descriptor :=
  ({ fs with data := fun file => if file = fd.file then overwrite (fs.data file) fd.pos d else fs.data file },
    { fd with pos := fd.pos + d.length })

variable [DecidableEq ν]

def unlink (name : ν) : FileSystem ν where
  dir := fun n => if n = name then none else fs.dir n
  data := fs.data
  next := fs.next
  dir_lt := fun n file h => by
    by_cases hn : n = name
    · simp [hn] at h
    · exact fs.dir_lt n file (by simpa [hn] using h)

@[simp] theorem dir_unlink (name : ν) : (fs.unlink name).dir name = none := if_pos rfl

def create (name : ν) : FileSystem ν where
  dir := fun n => if n = name then some fs.next else fs.dir n
  data := fun file => if file = fs.next then [] else fs.data file
  next := fs.next + 1
  dir_lt := fun n file h => by
    by_cases hn : n = name
    · have hfile : fs.next = file := by simpa [hn] using h
      omega
    · have := fs.dir_lt n file (by simpa [hn] using h)
      omega

def creat (name : ν) : FileSystem ν × Descriptor :=
  match fs.dir name with
  | some file => ({ fs with data := fun f => if f = file then [] else fs.data f }, ⟨file, 0⟩)
  | none => (fs.create name, ⟨fs.next, 0⟩)

end FileSystem

variable {fs : FileSystem ν} {name : ν} {fd : Descriptor} {d : List UInt8}

structure Holds (fs : FileSystem ν) (name : ν) (fd : Descriptor) (d : List UInt8) : Prop where
  dir : fs.dir name = some fd.file
  data : fs.data fd.file = d
  pos : fd.pos = d.length

theorem holds_creat [DecidableEq ν] (fs : FileSystem ν) (name : ν) :
    Holds (fs.creat name).1 name (fs.creat name).2 [] := by
  rw [FileSystem.creat]
  cases hdir : fs.dir name with
  | some file => exact ⟨hdir, if_pos rfl, rfl⟩
  | none => exact ⟨if_pos rfl, if_pos rfl, rfl⟩

theorem Holds.write (h : Holds fs name fd d) (e : List UInt8) :
    Holds (fs.write fd e).1 name (fs.write fd e).2 (d ++ e) := by
  refine ⟨h.dir, ?_, ?_⟩
  · calc (if fd.file = fd.file then overwrite (fs.data fd.file) fd.pos e else fs.data fd.file)
        = overwrite d d.length e := by rw [if_pos rfl, h.data, h.pos]
      _ = d ++ e := overwrite_length d e
  · simp [FileSystem.write, h.pos]

end NuttxApps.Files
