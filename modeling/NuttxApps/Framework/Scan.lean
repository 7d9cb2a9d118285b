import Mathlib.Data.List.Basic

/-!
# A loop that stops at an element

`scan` ends at the first element a test accepts. It returns that element with those before and behind it, so that what
the caller does to the element is an update of the array (`scan_eq_some`).
-/

namespace NuttxApps.Scan

variable {α β : Type}

def scan (stop : α → Bool) : List α → Option (List α × α × List α)
  | [] => none
  | x :: l => if stop x then some ([], x, l) else (scan stop l).map fun (a, y, b) => (x :: a, y, b)

variable {stop : α → Bool} {l a b : List α} {x : α}

theorem scan_append (ha : ∀ y ∈ a, stop y = false) (hx : stop x = true) : scan stop (a ++ x :: b) = some (a, x, b) := by
  induction a with
  | nil => simp [scan, hx]
  | cons y a ih =>
    rw [List.forall_mem_cons] at ha
    simp [scan, ha.1, ih ha.2]

theorem scan_eq_some : scan stop l = some (a, x, b) ↔ l = a ++ x :: b ∧ (∀ y ∈ a, stop y = false) ∧ stop x = true := by
  refine ⟨fun h => ?_, fun ⟨hl, ha, hx⟩ => hl ▸ scan_append ha hx⟩
  induction l generalizing a with
  | nil => cases h
  | cons y l ih =>
    by_cases hy : stop y = true
    · simp only [scan, hy, if_true, Option.some.injEq, Prod.mk.injEq] at h
      obtain ⟨rfl, rfl, rfl⟩ := h
      exact ⟨rfl, by simp, hy⟩
    · simp only [scan, if_neg hy, Option.map_eq_some_iff, Prod.exists, Prod.mk.injEq] at h
      obtain ⟨a', x', b', h, rfl, rfl, rfl⟩ := h
      obtain ⟨rfl, ha, hx⟩ := ih h
      exact ⟨rfl, by simpa using ⟨by simpa using hy, ha⟩, hx⟩

theorem scan_eq_none : scan stop l = none ↔ ∀ y ∈ l, stop y = false := by
  induction l with
  | nil => simp [scan]
  | cons y l ih => cases hy : stop y <;> simp [scan, hy, ih]

theorem scan_map (stop : β → Bool) (f : α → β) (l : List α) :
    scan stop (l.map f) =
      (scan (fun x => stop (f x)) l).map fun (a, x, b) => (a.map f, f x, b.map f) := by
  induction l with
  | nil => rfl
  | cons x l ih =>
    rw [List.map_cons, scan, scan, ih]
    cases stop (f x) with
    | true => rfl
    | false => cases scan (fun x => stop (f x)) l <;> rfl

end NuttxApps.Scan
