import Mathlib.Data.List.Basic

/-!
# Events and transition tables

Each state of either has a table (`Table`) of the events it expects, with the next state and an action; the last entry
is taken for any other event.
-/

namespace NuttxApps.Zmodem

inductive EventType
  | rqinit
  | rinit
  | sinit
  | ack
  | file
  | skip
  | nak
  | abort
  | fin
  | rpos
  | data
  | eof
  | ferr
  | crc
  | challenge
  | compl
  | can
  | freecnt
  | command
  | stderr
  | cancel
  | oo
  | datarcvd
  | timeout
  | error
deriving DecidableEq

inductive Ret
  | ok
  | xfrdone
  | etimedout
  | eio
  | ebadf
deriving DecidableEq

variable {σ α : Type}

/-- The table of a state, with the entry for `ZME_ERROR` that ends it apart. -/
structure Table (σ α : Type) where
  entries : List (EventType × σ × α)
  error : σ × α

def Table.find (t : Table σ α) (type : EventType) : σ × α :=
  match t.entries.find? (·.1 = type) with
  | some entry => entry.2
  | none => t.error

variable {P : σ × α → Prop} {t : Table σ α}

def Table.All (P : σ × α → Prop) (t : Table σ α) : Prop := (∀ entry ∈ t.entries, P entry.2) ∧ P t.error

theorem Table.all_cons {entry : EventType × σ × α} {entries : List (EventType × σ × α)} {error : σ × α} :
    (⟨entry :: entries, error⟩ : Table σ α).All P ↔ P entry.2 ∧ (⟨entries, error⟩ : Table σ α).All P := by
  simp only [Table.All, List.forall_mem_cons, and_assoc]

theorem Table.all_nil {error : σ × α} : (⟨[], error⟩ : Table σ α).All P ↔ P error := by
  simp [Table.All]

theorem Table.find_of {type : EventType} (h : ∀ entry ∈ t.entries, entry.1 = type → P entry.2) (herror : P t.error) :
    P (t.find type) := by
  rw [Table.find]
  cases hfind : t.entries.find? (·.1 = type) with
  | none => exact herror
  | some entry => exact h entry (List.mem_of_find?_eq_some hfind) (by simpa using List.find?_some hfind)

theorem Table.All.find (h : t.All P) (type : EventType) : P (t.find type) :=
  Table.find_of (fun entry hentry _ => h.1 entry hentry) h.2

end NuttxApps.Zmodem
