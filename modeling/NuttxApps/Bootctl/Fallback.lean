import NuttxApps.Bootctl.Slots

/-!
# Trial boots and the fallback

`bootctl_boot` tries the slot that `bootctl_done` activated if no trial is pending (`boots_done_iff`). The boot after a
trial falls back to the other slot if `bootctl_update` was called only while the active slot was marked successful
(`fallback_iff`).
-/

namespace NuttxApps.Bootctl

open Replay

variable (x : SlotId) (c : Config)

def Ready : Prop :=
  (c.slot x).active ∧ (c.slot x).bootable ∧ (c.slot x.other).active = false ∧
    (c.trial = false ∨ (c.slot x).successful)

instance (x : SlotId) (c : Config) : Decidable (Ready x c) := inferInstanceAs (Decidable (_ ∧ _))

theorem ready_done : ∀ c, c.trial = false → Ready (spare c) (Op.apply c .done) := by decide +kernel

theorem ready_apply : ∀ x c op, op = .update ∨ op = .success → Ready x c → Ready x (Op.apply c op) := by
  decide +kernel

theorem boot_of_ready : ∀ x c, Ready x c → (bootctlBoot c).1 = x := by decide +kernel

theorem boot_of_trial : ∀ c, Sound c → (c.slot (spare c).other).active → (c.slot (spare c).other).successful →
    c.trial → (bootctlBoot (Op.apply c .done)).1 ≠ spare c := by
  decide +kernel

/-- While the other slot is active and marked, the next boot selects what `bootctl_done` activates exactly if no trial
is pending. -/
theorem boots_done_iff (ops : List Op) :
    let c := history ops
    (c.slot (spare c).other).active → (c.slot (spare c).other).successful →
      ((∀ mid : List Op, (∀ op ∈ mid, op = .update ∨ op = .success) →
          (bootctlBoot (replay Op.apply c (.done :: mid))).1 = spare c) ↔ c.trial = false) := by
  intro c hactive hmarked
  constructor
  · intro h
    by_contra htrial
    exact boot_of_trial c (sound_history ops) hactive hmarked (by simpa using htrial) (h [] (by simp))
  · intro htrial mid hmid
    have hkeep : ∀ d, ∀ op ∈ mid, Ready (spare c) d → Ready (spare c) (Op.apply d op) :=
      fun d op hop => ready_apply _ d op (hmid op hop)
    rw [replay_cons]
    exact boot_of_ready _ _ (replay_keeps hkeep (ready_done c htrial))

theorem boots_done_first :
    (∀ mid : List Op, (∀ op ∈ mid, op = .update ∨ op = .success) →
      (bootctlBoot (replay Op.apply (history [.boot, .success, .update]) (.done :: mid))).1 = .b) ↔
        (history [.boot, .success, .update]).trial = false :=
  boots_done_iff [.boot, .success, .update] (by decide) (by decide)

/-- An update of slot B fails, and the one after it is not tried. -/
theorem second_update_skipped :
    let c := history [.boot, .success, .update, .done, .boot, .boot, .update]
    c.a.active ∧ c.a.successful ∧ spare c = .b ∧ (bootctlBoot (Op.apply c .done)).1 = .a := by
  decide

structure OnTrial (c : Config) : Prop where
  sound : Sound c
  trial : c.trial
  active : c.a.active ∨ c.b.active
  marked : c.a.successful ∨ c.b.successful

instance (c : Config) : Decidable (OnTrial c) :=
  decidable_of_iff (Sound c ∧ c.trial ∧ (c.a.active ∨ c.b.active) ∧ (c.a.successful ∨ c.b.successful))
    ⟨fun ⟨h₁, h₂, h₃, h₄⟩ => ⟨h₁, h₂, h₃, h₄⟩, fun h => ⟨h.sound, h.trial, h.active, h.marked⟩⟩

def Unmarked : Prop := ∀ x, (c.slot x).successful = false

instance (c : Config) : Decidable (Unmarked c) := inferInstanceAs (Decidable (∀ _, _))

def Spares (op : Op) : Prop := op = .update → ActiveMarked c

instance (c : Config) (op : Op) : Decidable (Spares c op) := inferInstanceAs (Decidable (_ → _))

theorem onTrial_boot : ∀ c, Sound c → (∃ x, (c.slot x).successful) → (c.slot (bootctlBoot c).1).successful = false →
    if c.a.active ∨ c.b.active then OnTrial (Op.apply c .boot) else Unmarked (Op.apply c .boot) := by
  intro c hc ⟨x, hx⟩
  revert x c
  decide +kernel

theorem onTrial_apply : ∀ c op, op = .update ∨ op = .done → OnTrial c →
    if Spares c op then OnTrial (Op.apply c op) else Unmarked (Op.apply c op) := by
  decide +kernel

theorem unmarked_apply : ∀ c op, op = .update ∨ op = .done → Unmarked c → Unmarked (Op.apply c op) := by
  decide +kernel

section

variable {c : Config} {mid : List Op} (hmid : ∀ op ∈ mid, op = .update ∨ op = .done)

include hmid

theorem unmarked_replay (hc : Unmarked c) : Unmarked (replay Op.apply c mid) :=
  replay_keeps (fun d op hop => unmarked_apply d op (hmid op hop)) hc

theorem onTrial_replay (hc : OnTrial c) :
    if Guarded Op.apply Spares c mid then OnTrial (replay Op.apply c mid) else Unmarked (replay Op.apply c mid) := by
  induction mid generalizing c with
  | nil => exact hc
  | cons op mid ih =>
    have hop := hmid op List.mem_cons_self
    have hmid' : ∀ v ∈ mid, v = .update ∨ v = .done := fun v hv => hmid v (List.mem_cons_of_mem _ hv)
    have hstep := onTrial_apply c op hop hc
    split_ifs at hstep with hspares
    · simpa only [Guarded, hspares, true_and, replay_cons] using ih hmid' hstep
    · have hguard : ¬ Guarded Op.apply Spares c (op :: mid) := fun h => hspares h.1
      rw [if_neg hguard, replay_cons]
      exact unmarked_replay hmid' hstep

end

theorem boot_of_onTrial : ∀ c, OnTrial c → (c.slot (bootctlBoot c).1).successful := by decide +kernel

theorem boot_of_unmarked {c : Config} (h : Unmarked c) : (c.slot (bootctlBoot c).1).successful = false := h _

def Held : Prop :=
  (c.slot x).active ∧ (c.slot x.other).active = false ∧ (c.slot x.other).successful = false ∧
    (x = .a ∨ (c.slot x).successful)

instance (x : SlotId) (c : Config) : Decidable (Held x c) := inferInstanceAs (Decidable (_ ∧ _))

theorem held_update : ∀ c, c.a.active ∨ c.b.active ∧ c.b.successful → Held (spare c).other (Op.apply c .update) := by
  decide +kernel

theorem held_apply : ∀ x c op, op ≠ .done → Held x c → Held x (Op.apply c op) := by decide +kernel

theorem boot_of_held : ∀ x c, Held x c → (bootctlBoot c).1 ≠ x.other := by decide +kernel

/-- Otherwise slot A is cleared, booted all the same, and marked. -/
theorem boot_cleared : ∀ c, Sound c → ¬ (c.a.active ∨ c.b.active ∧ c.b.successful) →
    let c' := replay Op.apply (Op.apply c .update) [.boot, .boot, .success]
    (bootctlBoot c').1 = spare c ∧ (c'.slot .a).successful := by
  decide +kernel

theorem cleared_never_boots_iff (hc : Sound c) :
    (∀ mid : List Op, (∀ op ∈ mid, op ≠ .done) →
        let c' := replay Op.apply (Op.apply c .update) mid
        (bootctlBoot c').1 = spare c → Unmarked c') ↔ c.a.active ∨ c.b.active ∧ c.b.successful := by
  constructor
  · intro h
    by_contra hne
    obtain ⟨hboot, hmarked⟩ := boot_cleared c hc hne
    have := h [.boot, .boot, .success] (by decide) hboot .a
    simp_all
  · intro h mid hmid c' hboot
    have hheld : Held (spare c).other c' :=
      replay_keeps (fun d op hop => held_apply _ d op (hmid op hop)) (held_update c h)
    have hother : (spare c).other.other = spare c := by cases spare c <;> rfl
    exact absurd hboot (hother ▸ boot_of_held _ _ hheld)

/-- At most one slot is active; a boot behind a trial boot selects a marked slot exactly if a slot was active at the
trial and each update in between found it marked; and the slot being updated is selected only if no slot is marked,
exactly if slot A was active when the update started or slot B was active and marked. -/
theorem fallback_iff (ops : List Op) :
    let c := history ops
    ¬ (c.a.active ∧ c.b.active) ∧
      ((∃ x, (c.slot x).successful) → (c.slot (bootctlBoot c).1).successful = false →
        ∀ mid : List Op, (∀ op ∈ mid, op = .update ∨ op = .done) →
          let c' := replay Op.apply c (.boot :: mid)
          ((c'.slot (bootctlBoot c').1).successful ↔
            (c.a.active ∨ c.b.active) ∧ Guarded Op.apply Spares (Op.apply c .boot) mid)) ∧
      ((∀ mid : List Op, (∀ op ∈ mid, op ≠ .done) →
          let c' := replay Op.apply c (.update :: mid)
          (bootctlBoot c').1 = spare c → ∀ x, (c'.slot x).successful = false) ↔
        c.a.active ∨ c.b.active ∧ c.b.successful) := by
  intro c
  have hc : Sound c := sound_history ops
  refine ⟨hc.one, fun hsome hnot mid hmid => ?_, cleared_never_boots_iff c hc⟩
  rw [replay_cons]
  have hboot := onTrial_boot c hc hsome hnot
  split_ifs at hboot with hactive
  · have hrun := onTrial_replay hmid hboot
    split_ifs at hrun with hguard
    · exact iff_of_true (boot_of_onTrial _ hrun) ⟨hactive, hguard⟩
    · simp only [hguard, and_false, iff_false, Bool.not_eq_true]
      exact boot_of_unmarked hrun
  · simp only [hactive, false_and, iff_false, Bool.not_eq_true]
    exact boot_of_unmarked (unmarked_replay hmid hboot)

/-- Slot B is on trial and starts an update: slot A, the fallback, is cleared and booted. -/
theorem fallback_cleared :
    let c := history [.boot, .success, .update, .done]
    let c' := replay Op.apply c [.boot, .update]
    c.a.successful ∧ (bootctlBoot c).1 = .b ∧ c.b.successful = false ∧
      (bootctlBoot c').1 = .a ∧ c'.a.successful = false := by
  decide

end NuttxApps.Bootctl
