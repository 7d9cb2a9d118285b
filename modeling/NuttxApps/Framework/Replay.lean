import Mathlib.Data.List.Basic

/-!
# Replaying logs

`replay` applies a log of writes or events. What a power cut can leave is the state after a prefix of it: `Along app I s
ws` states `I` of the state after every prefix of `ws`. `Guarded app C s ws` states a condition `C` of every item in the
state it is applied to, and `along_of_guarded` ties the two.
-/

namespace NuttxApps.Replay

variable {σ ω : Type} (app : σ → ω → σ)

def replay (s : σ) (ws : List ω) : σ := ws.foldl app s

@[simp] theorem replay_nil (s : σ) : replay app s [] = s := rfl

@[simp] theorem replay_cons (s : σ) (w : ω) (ws : List ω) : replay app s (w :: ws) = replay app (app s w) ws := rfl

theorem replay_append (s : σ) (ws vs : List ω) : replay app s (ws ++ vs) = replay app (replay app s ws) vs :=
  List.foldl_append

def Along (I : σ → Prop) (s : σ) (ws : List ω) : Prop := ∀ n, I (replay app s (ws.take n))

/-- `C` holds of every item of `ws`, in the state it is applied to. -/
def Guarded (C : σ → ω → Prop) : σ → List ω → Prop
  | _, [] => True
  | s, w :: ws => C s w ∧ Guarded C (app s w) ws

instance decidableGuarded (C : σ → ω → Prop) [∀ s w, Decidable (C s w)] :
    ∀ s ws, Decidable (Guarded app C s ws)
  | _, [] => .isTrue trivial
  | s, w :: ws =>
    have := decidableGuarded C (app s w) ws
    inferInstanceAs (Decidable (C s w ∧ Guarded app C (app s w) ws))

variable {app} {I J : σ → Prop} {C : σ → ω → Prop} {s : σ} {w : ω} {ws vs : List ω}

theorem replay_keeps (hstep : ∀ s, ∀ w ∈ ws, I s → I (app s w)) (h : I s) : I (replay app s ws) := by
  induction ws generalizing s with
  | nil => exact h
  | cons w ws ih =>
    exact ih (fun s v hv => hstep s v (List.mem_cons_of_mem _ hv)) (hstep s w List.mem_cons_self h)

theorem along_nil : Along app I s [] ↔ I s :=
  ⟨fun h => h 0, fun h n => by simpa using h⟩

theorem along_cons : Along app I s (w :: ws) ↔ I s ∧ Along app I (app s w) ws := by
  refine ⟨fun h => ⟨h 0, fun n => h (n + 1)⟩, fun ⟨h₀, h⟩ n => ?_⟩
  cases n with
  | zero => exact h₀
  | succ n => exact h n

theorem guarded_append : Guarded app C s (ws ++ vs) ↔ Guarded app C s ws ∧ Guarded app C (replay app s ws) vs := by
  induction ws generalizing s with
  | nil => simp [Guarded]
  | cons w ws ih => simp [Guarded, ih, and_assoc]

theorem guarded_true (s : σ) (ws : List ω) : Guarded app (fun _ _ => True) s ws := by
  induction ws generalizing s with
  | nil => trivial
  | cons w ws ih => exact ⟨trivial, ih _⟩

theorem Along.start (h : Along app I s ws) : I s := h 0

theorem Along.mono (h : Along app I s ws) (hIJ : ∀ s, I s → J s) : Along app J s ws :=
  fun n => hIJ _ (h n)

/-- An invariant that every item meeting `C` keeps holds along every log
whose items all meet `C`. -/
theorem along_of_guarded (hstep : ∀ s w, I s → C s w → I (app s w)) (h₀ : I s)
    (hC : Guarded app C s ws) : Along app I s ws := by
  induction ws generalizing s with
  | nil => exact along_nil.mpr h₀
  | cons w ws ih => exact along_cons.mpr ⟨h₀, ih (hstep s w h₀ hC.1) hC.2⟩

section

variable {D : σ → ω → Prop} (hstep : ∀ s w, I s → C s w → I (app s w))

include hstep

/-- What an invariant that every item meeting `C` keeps says of such an item holds along such a log. -/
theorem guarded_of_inv (hD : ∀ s w, I s → C s w → D s w) (h₀ : I s) (hC : Guarded app C s ws) : Guarded app D s ws := by
  induction ws generalizing s with
  | nil => trivial
  | cons w ws ih => exact ⟨hD s w h₀ hC.1, ih (hstep s w h₀ hC.1) hC.2⟩

theorem guarded_iff (hCD : ∀ s w, I s → (C s w ↔ D s w)) (h₀ : I s) : Guarded app C s ws ↔ Guarded app D s ws :=
  ⟨guarded_of_inv hstep (fun s w hI => (hCD s w hI).mp) h₀,
    guarded_of_inv (fun s w hI hD => hstep s w hI ((hCD s w hI).mpr hD)) (fun s w hI => (hCD s w hI).mpr) h₀⟩

end

/-- Where the item that breaks `C` breaks `I`, a log along which `I` holds has only items meeting `C`. -/
theorem guarded_of_along (hstep : ∀ s w, I s → I (app s w) → C s w) (h : Along app I s ws) : Guarded app C s ws := by
  induction ws generalizing s with
  | nil => trivial
  | cons w ws ih =>
    obtain ⟨h₀, h₁⟩ := along_cons.mp h
    exact ⟨hstep s w h₀ h₁.start, ih h₁⟩

end NuttxApps.Replay
