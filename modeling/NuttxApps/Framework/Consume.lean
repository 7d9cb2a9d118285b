import Mathlib.Data.List.Basic

/-!
# Parsers that consume items

A parser takes items from the front of a list and returns a value and the items that are left, or the reason why it
stops. `many` repeats a parser until it finds nothing more to take.
-/

namespace NuttxApps.Consume

variable {ι α : Type} {ε β : Type} {x : Except ε α}

theorem map_eq_ok_iff {f : α → β} {b : β} : x.map f = .ok b ↔ ∃ a, x = .ok a ∧ f a = b := by
  cases x <;> simp [Except.map]

variable {f : α → Except ε β}

theorem bind_eq_ok_iff {b : β} : x >>= f = .ok b ↔ ∃ a, x = .ok a ∧ f a = .ok b := by
  cases x <;> simp [bind, Except.bind]

theorem forall₂_of_mapM {as : List α} {bs : List β} (h : as.mapM f = .ok bs) :
    List.Forall₂ (fun a b => f a = .ok b) as bs := by
  induction as generalizing bs with
  | nil =>
    obtain rfl := Except.ok.inj h
    exact .nil
  | cons a as ih =>
    rw [List.mapM_cons] at h
    obtain ⟨b, hb, h⟩ := bind_eq_ok_iff.mp h
    obtain ⟨bs', hbs, h⟩ := bind_eq_ok_iff.mp h
    obtain rfl := Except.ok.inj h
    exact .cons hb (ih hbs)

/-- Why a parser stops: there is nothing of its kind; it is wrong; the program does something undefined; or the fuel is
used up. -/
inductive Stop
  | eof
  | invalid
  | undefined
  | fuel
deriving DecidableEq

abbrev Parser (ι α : Type) := List ι → Except Stop (α × List ι)

/-- As many values as there are, at most `room`; one more is wrong. -/
def many (p : Parser ι α) : Nat → Nat → Parser ι (List α)
  | 0, _, _ => .error .fuel
  | fuel + 1, room, items =>
    match p items with
    | .error .eof => .ok ([], items)
    | .error e => .error e
    | .ok (a, rest) =>
      match room with
      | 0 => .error .invalid
      | room + 1 =>
        match many p fuel room rest with
        | .error e => .error e
        | .ok (as, rest) => .ok (a :: as, rest)

variable {p : Parser ι α} {fuel room : Nat} {items rest : List ι} {as : List α}

theorem exists_of_mem_many {a : α} (h : many p fuel room items = .ok (as, rest)) (ha : a ∈ as) :
    ∃ items rest, p items = .ok (a, rest) := by
  induction fuel generalizing items room as rest with
  | zero => cases h
  | succ fuel ih =>
    rw [many] at h
    split at h
    · obtain ⟨rfl, -⟩ := Prod.mk.inj (Except.ok.inj h)
      cases ha
    · cases h
    rename_i a' rest' hp
    split at h
    · cases h
    split at h
    · cases h
    rename_i hmany
    obtain ⟨rfl, -⟩ := Prod.mk.inj (Except.ok.inj h)
    rcases List.mem_cons.mp ha with rfl | ha
    · exact ⟨items, rest', hp⟩
    · exact ih hmany ha

end NuttxApps.Consume
