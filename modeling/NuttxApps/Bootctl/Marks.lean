import NuttxApps.Bootctl.Slots

/-!
# The slot that `bootctl_success` marks

`bootctl_success` marks the slot that is stored as active, whichever is running. In a history whose events meet
`Careful`, a slot is marked only by a `bootctl_success` that runs in it (`marks_only_what_ran`), also across power cuts.
-/

namespace NuttxApps.Bootctl

open Replay

/-- The properties, the slot that runs, and if since then `bootctl_done` was not called and the power was lost. -/
structure Machine where
  config : Config
  running : Option SlotId
  (fresh off : Bool)

def Machine.init : Machine := ⟨.empty, none, false, false⟩

/-- An operation; the power may be lost after some of its properties are set. -/
structure Event where
  op : Op
  cut : Option Nat

variable (c : Config) (s : Machine) (e : Event)

/-- What an event leaves. Without power nothing but `bootctl_boot` runs. -/
def Machine.step : Machine :=
  if s.off ∧ e.op ≠ .boot then s
  else
    match e.cut, e.op with
    | some k, op => { s with config := replay Config.set s.config ((op.writes s.config).take k), off := true }
    | none, .boot => ⟨Op.apply s.config .boot, some (bootctlBoot s.config).1, true, false⟩
    | none, .done => { s with config := Op.apply s.config .done, fresh := false }
    | none, op => { s with config := Op.apply s.config op }

def Careful : Prop :=
  (e.op = .success → s.fresh ∨ s.off) ∧
    (e.op = .done ∨ e.op = .boot → s.config.a.active = false → e.cut ≠ some 1)

def MarksRunning : Prop :=
  ∀ x, (s.config.slot x).successful = false → ((s.step e).config.slot x).successful →
    e.op = .success ∧ s.running = some x

instance (s : Machine) (e : Event) : Decidable (Careful s e) := inferInstanceAs (Decidable (_ ∧ _))

def meant : SlotId := if c.a.active then .a else .b

def Bootable : Prop := c.a.active → c.a.bootable ∨ c.a.successful

instance (c : Config) : Decidable (Bootable c) := inferInstanceAs (Decidable (_ → _))

theorem bootable_apply : ∀ c op, Bootable c → Bootable (Op.apply c op) := by decide +kernel

theorem bootable_before : ∀ c op, Bootable c → (op = .done ∨ op = .boot → c.a.active) →
    (Op.apply c op).a.active → c.a.bootable ∨ c.a.successful := by
  decide +kernel

theorem bootable_between : ∀ c op, Bootable c → (Op.apply c op).a.active →
    (Op.apply c op).a.bootable ∨ c.a.successful := by
  decide +kernel

theorem marked_apply : ∀ c op x, (c.slot x).successful = false → ((Op.apply c op).slot x).successful →
    op = .success ∧ x = meant c := by
  decide +kernel

theorem writes_cases (op : Op) : op.writes c = [] ∨ op.writes c = writeConfig (op.apply c) := by
  have hall : ∀ boot, op.writes c = writeConfig boot → op.writes c = writeConfig (op.apply c) := by
    intro boot h
    rw [Op.apply, h]
    rfl
  cases op with
  | update =>
    simp only [Op.writes, bootctlUpdate] at hall ⊢
    split_ifs at hall ⊢ <;> exact .inr (hall _ rfl)
  | done =>
    simp only [Op.writes, bootctlDone] at hall ⊢
    split_ifs at hall ⊢ <;> exact .inr (hall _ rfl)
  | boot => exact .inr (hall _ rfl)
  | success =>
    simp only [Op.writes, bootctlSuccess] at hall ⊢
    split_ifs at hall ⊢ <;> first | exact .inl rfl | exact .inr (hall _ rfl)

theorem replay_take_writes (op : Op) (k : Nat) :
    replay Config.set c ((op.writes c).take k) = c ∨
      replay Config.set c ((op.writes c).take k) = c.upTo k (Op.apply c op) := by
  rcases writes_cases c op with h | h
  · left; rw [h, List.take_nil, replay_nil]
  · right; rw [h, replay_take_writeConfig]

variable (s : Machine) (e : Event) {c : Config} {op : Op} (k : Nat)

theorem bootable_take (hc : Bootable c)
    (hk : op = .done ∨ op = .boot → c.a.active = false → k ≠ 1) :
    Bootable (replay Config.set c ((op.writes c).take k)) := by
  rcases replay_take_writes c op k with h | h <;> rw [h]
  · exact hc
  match k with
  | 0 => exact hc
  | 1 =>
    refine bootable_before c op hc fun hop => ?_
    simpa using fun ha => hk hop ha rfl
  | 2 => exact bootable_between c op hc
  | k + 3 => exact bootable_apply c op hc

theorem marked_take {x : SlotId} (hx : (c.slot x).successful = false)
    (hx' : ((replay Config.set c ((op.writes c).take k)).slot x).successful) : op = .success ∧ x = meant c := by
  refine marked_apply c op x hx ?_
  rcases replay_take_writes c op k with h | h <;> rw [h] at hx'
  · rw [hx] at hx'
    exact absurd hx' Bool.false_ne_true
  · cases x <;> simp only [Config.slot, Config.upTo] at hx hx' ⊢ <;> split at hx' <;> simp_all

/-- Where `bootctl_success` may be called, it means the slot that runs or one that is marked. -/
structure Knows (s : Machine) : Prop where
  bootable : Bootable s.config
  meant : s.fresh → s.off = false → s.running = some (meant s.config) ∨ (s.config.slot (meant s.config)).successful

theorem meant_boot : ∀ c, Bootable c → let c' := Op.apply c .boot
    (bootctlBoot c).1 = meant c' ∨ (c'.slot (meant c')).successful := by
  decide +kernel

theorem meant_apply : ∀ c op, op = .update ∨ op = .success → let c' := Op.apply c op
    meant c' = meant c ∧ ((c.slot (meant c)).successful → (c'.slot (meant c')).successful) := by
  decide +kernel

theorem knows_step (h : Knows s) (hcare : Careful s e) : Knows (s.step e) := by
  obtain ⟨op, cut⟩ := e
  rw [Machine.step]
  split_ifs with hoff
  · exact h
  cases cut with
  | some k =>
    refine ⟨bootable_take k h.bootable fun hop ha => ?_, nofun⟩
    simpa using hcare.2 hop ha
  | none =>
    cases op with
    | boot =>
      refine ⟨bootable_apply _ .boot h.bootable, fun _ _ => ?_⟩
      exact (meant_boot s.config h.bootable).imp_left (congrArg some)
    | done => exact ⟨bootable_apply _ .done h.bootable, nofun⟩
    | update =>
      obtain ⟨hmeant, hmarked⟩ := meant_apply s.config .update (.inl rfl)
      refine ⟨bootable_apply _ .update h.bootable, fun hfresh hon => ?_⟩
      exact (h.meant hfresh hon).imp (hmeant ▸ ·) hmarked
    | success =>
      obtain ⟨hmeant, hmarked⟩ := meant_apply s.config .success (.inr rfl)
      refine ⟨bootable_apply _ .success h.bootable, fun hfresh hon => ?_⟩
      exact (h.meant hfresh hon).imp (hmeant ▸ ·) hmarked

theorem marked_step {s : Machine} {e : Event} {x : SlotId} (hx : (s.config.slot x).successful = false)
    (hx' : ((s.step e).config.slot x).successful) : e.op = .success ∧ s.off = false ∧ x = meant s.config := by
  obtain ⟨op, cut⟩ := e
  by_cases hoff : s.off ∧ op ≠ .boot
  · rw [Machine.step, if_pos hoff, hx] at hx'
    exact absurd hx' Bool.false_ne_true
  · rw [Machine.step, if_neg hoff] at hx'
    have hmarked : op = .success ∧ x = meant s.config := by
      cases cut with
      | some k => exact marked_take k hx hx'
      | none => cases op <;> exact marked_apply s.config _ x hx hx'
    refine ⟨hmarked.1, ?_, hmarked.2⟩
    simpa [hmarked.1] using hoff

theorem marksRunning_of_knows (h : Knows s) (hcare : Careful s e) : MarksRunning s e := by
  intro x hx hx'
  obtain ⟨hop, hon, rfl⟩ := marked_step hx hx'
  have hfresh : s.fresh := by simpa [hon] using hcare.1 hop
  refine ⟨hop, (h.meant hfresh hon).resolve_right ?_⟩
  simp [hx]

/-- In every careful history, `bootctl_success` marks the slot that runs, and nothing else marks a slot. -/
theorem marks_only_what_ran (es : List Event) (h : Guarded Machine.step Careful .init es) :
    Guarded Machine.step MarksRunning .init es := by
  have hinit : Knows .init := ⟨nofun, nofun⟩
  exact guarded_of_inv knows_step marksRunning_of_knows hinit h

def cutHistory : List Event :=
  [⟨.boot, none⟩, ⟨.success, none⟩, ⟨.update, none⟩, ⟨.done, none⟩, ⟨.boot, none⟩, ⟨.success, some 6⟩, ⟨.boot, none⟩,
    ⟨.update, none⟩, ⟨.done, some 2⟩, ⟨.boot, none⟩, ⟨.success, none⟩]

theorem marks_cutHistory :
    Guarded Machine.step Careful .init cutHistory ∧ Guarded Machine.step MarksRunning .init cutHistory ∧
      (replay Machine.step .init cutHistory).config.b.successful :=
  ⟨by decide, marks_only_what_ran cutHistory (by decide), by decide⟩

/-- Slot B is marked and never ran: `bootctl_success` is called behind `bootctl_done`. -/
theorem marked_before_boot :
    let s := replay Machine.step .init [⟨.boot, none⟩, ⟨.success, none⟩, ⟨.update, none⟩, ⟨.done, none⟩]
    s.config.b.successful = false ∧ (s.step ⟨.success, none⟩).config.b.successful ∧ s.running = some .a := by
  decide

end NuttxApps.Bootctl
