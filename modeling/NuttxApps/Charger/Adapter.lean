import NuttxApps.Charger.Protect

/-!
# The adapter

The state machine switches the adapter off on entry to three states and on again where it leaves them, with one
exception: a plug-out in `CHARGER_STATE_TEMP_PROTECT` leads to `CHARGER_STATE_INIT` with the adapter off.
`adapter_on_iff` says that this is the only way to charge with the adapter off.
-/

namespace NuttxApps.Charger

open Replay

variable {n : Nat}

def enableAdapter (D : Desc n) (R : Results n) (m : Manager n) (event : Option Event) : Option Bool :=
  if D.adapterExist then
    match m.currstate, event with
    | .tempProtect, none => some false
    | .tempProtect, some .overtempRecovery => some true
    | .full, none => some false
    | .full, some .chgTimeout => if (updateFullbattTimer D m).2 then some true else none
    | .full, some .plugout => some true
    | .fault, none => if (checkFaultPlot D R { m with faultTimerCnt := 0 }).2 then none else some false
    -- `charger_fault_escape`
    | .fault, some event => if (chargerFaultEvent D R m event).nextstate ≠ .fault then some true else none
    | _, _ => none
  else none

def Daemon.next (w : Daemon n) : Option (Manager n × Option Event) :=
  if w.changed then some (w.manager, none)
  else
    match w.manager.queue with
    | [] => none
    | event :: rest => some ({ w.manager with queue := rest }, some event)

/-- The daemon with the last command to the adapter, and whether the charger was unplugged in
`CHARGER_STATE_TEMP_PROTECT` since it was last switched on. -/
structure Watched (n : Nat) where
  daemon : Daemon n
  (adapter unplugged : Bool)

/-- Behind `charger_manager_init`, which switches the adapter on. -/
def Watched.init : Watched n := ⟨.init, true, false⟩

def Watched.command (w : Watched n) (daemon : Daemon n) (plugout : Bool) : Option Bool → Watched n
  | some true => ⟨daemon, true, false⟩
  | some false => ⟨daemon, false, w.unplugged⟩
  | none => ⟨daemon, w.adapter, w.unplugged || plugout⟩

def watch (D : Desc n) (w : Watched n) : Input n → Watched n
  | .run R =>
    match w.daemon.next with
    | none => w
    | some (m, event) =>
      w.command (step D w.daemon (.run R)) (m.currstate == .tempProtect && event == some .plugout)
        (enableAdapter D R m event)
  | input => { w with daemon := step D w.daemon input }

variable {D : Desc n} {R : Results n} {m : Manager n} {w : Watched n}

@[simp] theorem daemon_command (daemon : Daemon n) (plugout : Bool) (command : Option Bool) :
    (w.command daemon plugout command).daemon = daemon := by
  rcases command with _ | _ | _ <;> rfl

section

variable {w : Daemon n} {event : Option Event}

theorem next_eq_some (h : w.next = some (m, event)) :
    w.changed = true ∧ m = w.manager ∧ event = none ∨
      w.changed = false ∧ ∃ e rest, w.manager.queue = e :: rest ∧ m = { w.manager with queue := rest } ∧
        event = some e := by
  rw [Daemon.next] at h
  split_ifs at h with hchanged
  · obtain ⟨rfl, rfl⟩ := Prod.mk.inj (Option.some.inj h)
    exact .inl ⟨hchanged, rfl, rfl⟩
  split at h
  · cases h
  · rename_i e rest hqueue
    obtain ⟨rfl, rfl⟩ := Prod.mk.inj (Option.some.inj h)
    exact .inr ⟨Bool.not_eq_true _ |>.mp hchanged, e, rest, hqueue, rfl, rfl⟩

theorem step_of_next (h : w.next = some (m, event)) : step D w (.run R) = stateRun D R m event := by
  rcases next_eq_some h with ⟨hchanged, rfl, rfl⟩ | ⟨hchanged, e, rest, hqueue, rfl, rfl⟩
  · rw [step, if_pos hchanged]
  · simp [step, hchanged, hqueue]

theorem ready_of_next (hw : Safe w) (h : w.next = some (m, event)) :
    Ready m ∧ m.currstate = w.manager.currstate ∧ (event = none ↔ w.changed = true) ∧
      (event = none → m.currCharger = none) := by
  rcases next_eq_some h with ⟨hchanged, rfl, rfl⟩ | ⟨hchanged, e, rest, -, rfl, rfl⟩
  · exact ⟨hw.ready, rfl, iff_of_true rfl hchanged, fun _ => hw.entered hchanged⟩
  · exact ⟨⟨hw.ready.nextstate, hw.ready.idle, hw.ready.owned⟩, rfl, iff_of_false nofun (by simp [hchanged]), nofun⟩

end

section

variable (hadapter : D.adapterExist = true)

include hadapter

/-- In `CHARGER_STATE_TEMP_PROTECT` the adapter is switched off at first, and on by the recovery only. -/
theorem tempProtect_command (h : Ready m) (hstate : m.currstate = .tempProtect) (event : Option Event) :
    event = none ∧ enableAdapter D R m event = some false ∧ (stateFunc D R m event).nextstate = .tempProtect ∨
      enableAdapter D R m event = some true ∧ (stateFunc D R m event).nextstate ≠ .tempProtect ∨
      event = some .plugout ∧ enableAdapter D R m event = none ∧ (stateFunc D R m event).nextstate = .init ∨
      event ≠ none ∧ event ≠ some .plugout ∧ enableAdapter D R m event = none ∧
        (stateFunc D R m event).nextstate = .tempProtect := by
  have hnext : m.nextstate = .tempProtect := h.nextstate.trans hstate
  simp only [enableAdapter, stateFunc, hstate, if_pos hadapter]
  rcases event with _ | (_ | _ | _ | _ | _)
  · exact .inl ⟨rfl, rfl, hnext⟩
  · exact .inr (.inr (.inr ⟨by decide, by decide, rfl, hnext⟩))
  · exact .inr (.inr (.inl ⟨rfl, rfl, rfl⟩))
  · refine .inr (.inr (.inr ⟨by decide, by decide, rfl, ?_⟩))
    simp only [chargerStateTempProtect]
    split
    · exact hnext
    · rename_i temp _
      obtain ⟨t, lock, q, heq, -⟩ := updateBatteryTemperature_sent D m R.send temp
      rw [heq]
      exact hnext
  · exact .inr (.inr (.inr ⟨by decide, by decide, rfl, hnext⟩))
  · refine .inr (.inl ⟨rfl, ?_⟩)
    simp only [chargerStateTempProtect, resume]
    split_ifs <;> decide

theorem full_command (h : Ready m) (hstate : m.currstate = .full) (event : Option Event) :
    enableAdapter D R m event = some true ∨ (stateFunc D R m event).nextstate = .full ∨
      (stateFunc D R m event).nextstate = .tempProtect := by
  have hnext : m.nextstate = .full := h.nextstate.trans hstate
  simp only [enableAdapter, stateFunc, hstate, if_pos hadapter]
  rcases event with _ | (_ | _ | _ | _ | _)
  case some.plugout => exact .inl rfl
  case some.overtemp => exact .inr (.inr rfl)
  case some.chgTimeout =>
    simp only [chargerStateFull]
    split_ifs
    · exact .inl rfl
    · exact .inr (.inl hnext)
  all_goals exact .inr (.inl hnext)

theorem fault_command (h : Ready m) (hstate : m.currstate = .fault) (event : Option Event)
    (hentry : event = none → m.currCharger = none) :
    enableAdapter D R m event = some true ∨ (stateFunc D R m event).nextstate = .fault := by
  simp only [enableAdapter, stateFunc, hstate, if_pos hadapter]
  rcases event with _ | event
  · obtain ⟨curr, d, heq, -⟩ := chargerFaultProc_eq (m := { m with faultTimerCnt := 0 }) D R (hentry rfl)
    refine .inr ?_
    simp only [chargerStateFault]
    rw [heq]
    exact h.nextstate.trans hstate
  · simp only [chargerStateFault]
    split_ifs with hnext
    · exact .inl rfl
    · exact .inr (not_not.mp hnext)

structure Lit (w : Watched n) : Prop where
  safe : Safe w.daemon
  off : w.daemon.manager.currstate = .tempProtect → w.daemon.changed = false → w.adapter = false
  on : w.daemon.manager.currstate = .init ∨ w.daemon.manager.currstate = .chg →
    (w.adapter = true ↔ w.unplugged = false)

omit hadapter in
theorem stateRun_eq (h : Ready m) {event : Option Event} (hentry : event = none → m.currCharger = none) :
    (stateRun D R m event).manager.currstate = (stateFunc D R m event).nextstate ∧
      ((stateRun D R m event).changed = false ↔ (stateFunc D R m event).nextstate = m.currstate) := by
  have hruns := stateFunc_runs h event hentry (D := D) (R := R)
  rw [stateRun, hruns.currstate]
  split_ifs with hchanged
  · exact ⟨rfl, iff_of_false (by decide) (Ne.symm hchanged)⟩
  · exact ⟨hruns.currstate.trans (not_not.mp hchanged), iff_of_true rfl (not_not.mp hchanged).symm⟩

omit hadapter in
theorem Lit.mk_on {daemon : Daemon n} {adapter unplugged : Bool} (hsafe : Safe daemon)
    (hon : adapter = true ↔ unplugged = false)
    (hleft : daemon.manager.currstate = .tempProtect → daemon.changed = true) : Lit ⟨daemon, adapter, unplugged⟩ where
  safe := hsafe
  off := fun hstate hchanged => absurd (hleft hstate) (by rw [show daemon.changed = false from hchanged]; decide)
  on := fun _ => hon

omit hadapter in
theorem Lit.mk_other {daemon : Daemon n} {plugout : Bool} {command : Option Bool} (hsafe : Safe daemon)
    (hstate : daemon.manager.currstate ≠ .init ∧ daemon.manager.currstate ≠ .chg)
    (hleft : daemon.manager.currstate = .tempProtect → daemon.changed = true) :
    Lit (w.command daemon plugout command) := by
  refine ⟨?_, fun hprotect hchanged => ?_, fun hlit => ?_⟩
  · rwa [daemon_command]
  · rw [daemon_command] at hprotect hchanged
    exact absurd (hleft hprotect) (by rw [hchanged]; decide)
  · rw [daemon_command] at hlit
    exact absurd hlit (not_or.mpr hstate)

theorem Lit.tempProtect {event : Option Event} (h : Lit w) (hready : Ready m) (hstate : m.currstate = .tempProtect)
    (hcurr : m.currstate = w.daemon.manager.currstate) (hevent : event = none ↔ w.daemon.changed = true)
    (hentry : event = none → m.currCharger = none) (hsafe : Safe (stateRun D R m event)) :
    Lit (w.command (stateRun D R m event) (event == some .plugout) (enableAdapter D R m event)) := by
  obtain ⟨hstate', -⟩ := stateRun_eq (D := D) (R := R) hready hentry
  have hoff : event ≠ none → w.adapter = false := by
    intro hsome
    refine h.off (hcurr.symm.trans hstate) ?_
    rwa [← Bool.not_eq_true, ← hevent]
  rcases tempProtect_command (R := R) hadapter hready hstate event with
    ⟨-, hcommand, hsame⟩ | ⟨hcommand, hleft⟩ | ⟨hplugout, hcommand, hinit⟩ | ⟨hsome, hother, hcommand, hsame⟩
  all_goals rw [hcommand]
  · refine ⟨hsafe, fun _ _ => rfl, fun hlit => absurd hlit ?_⟩
    rw [daemon_command, hstate', hsame]
    decide
  · exact .mk_on hsafe (iff_of_true rfl rfl) fun hprotect => absurd (hstate'.symm.trans hprotect) hleft
  · rw [hplugout]
    have hadapter : w.adapter = false := hoff (by rw [hplugout]; nofun)
    refine ⟨hplugout ▸ hsafe, fun _ _ => hadapter, fun _ => iff_of_false ?_ ?_⟩
    · rw [show (w.command _ _ none).adapter = w.adapter from rfl, hadapter]
      decide
    · simp [Watched.command]
  · refine ⟨hsafe, fun _ _ => hoff hsome, fun hlit => absurd hlit ?_⟩
    rw [daemon_command, hstate', hsame]
    decide

theorem Lit.run (h : Lit w) (R : Results n) : Lit (watch D w (.run R)) := by
  have hsafe : Safe (step D w.daemon (.run R)) := step_safe h.safe _
  rcases hnext : w.daemon.next with _ | ⟨m, event⟩
  · rw [watch, hnext]
    exact h
  obtain ⟨hready, hcurr, hevent, hentry⟩ := ready_of_next h.safe hnext
  obtain ⟨hstate', hchanged'⟩ := stateRun_eq (D := D) (R := R) hready hentry
  rw [watch, hnext]
  dsimp only
  rw [step_of_next hnext] at hsafe ⊢
  have hon := h.on
  rw [← hcurr] at hon
  -- `CHARGER_STATE_TEMP_PROTECT` is entered from another state
  have hentered : m.currstate ≠ .tempProtect → (stateRun D R m event).manager.currstate = .tempProtect →
      (stateRun D R m event).changed = true := by
    intro hne hprotect
    rw [← Bool.not_eq_false, hchanged', ← hstate', hprotect]
    exact Ne.symm hne
  cases hstate : m.currstate with
  | init | chg =>
    -- nothing is commanded, and an unplugging is noted in `CHARGER_STATE_TEMP_PROTECT` only
    have hcommand : enableAdapter D R m event = none := by simp [enableAdapter, hstate]
    rw [hcommand, show (_ == State.tempProtect) = false from rfl, Bool.false_and]
    exact .mk_on hsafe (by rw [Bool.or_false]; exact hon (by simp [hstate])) (hentered (by simp [hstate]))
  | tempProtect => exact h.tempProtect hadapter hready hstate hcurr hevent hentry hsafe
  | full =>
    have hne : m.currstate ≠ .tempProtect := by rw [hstate]; decide
    rcases full_command (R := R) hadapter hready hstate event with hcommand | hsame | hprotect
    · rw [hcommand]
      exact .mk_on hsafe (iff_of_true rfl rfl) (hentered hne)
    · exact .mk_other hsafe (by rw [hstate', hsame]; decide) (hentered hne)
    · exact .mk_other hsafe (by rw [hstate', hprotect]; decide) (hentered hne)
  | fault =>
    have hne : m.currstate ≠ .tempProtect := by rw [hstate]; decide
    rcases fault_command (R := R) hadapter hready hstate event hentry with hcommand | hsame
    · rw [hcommand]
      exact .mk_on hsafe (iff_of_true rfl rfl) (hentered hne)
    · exact .mk_other hsafe (by rw [hstate', hsame]; decide) (hentered hne)

omit hadapter in
theorem Lit.handled {daemon : Daemon n} (h : Lit w) (hsafe : Safe daemon)
    (hcurr : daemon.manager.currstate = w.daemon.manager.currstate) (hchanged : daemon.changed = w.daemon.changed) :
    Lit { w with daemon := daemon } where
  safe := hsafe
  off := by
    rw [hcurr, hchanged]
    exact h.off
  on := by
    rw [hcurr]
    exact h.on

omit hadapter in
theorem healthd_same (D : Desc n) (w : Daemon n) (sendPlug sendTemp online : Bool) (temp : Int) :
    (step D w (.healthd sendPlug sendTemp online temp)).manager.currstate = w.manager.currstate ∧
      (step D w (.healthd sendPlug sendTemp online temp)).changed = w.changed := by
  rw [step]
  split_ifs with hchanged
  · exact ⟨rfl, rfl⟩
  refine ⟨?_, (Bool.not_eq_true _ |>.mp hchanged).symm⟩
  have htemp : ∀ m : Manager n, (updateBatteryTemperature D m sendTemp temp).1.currstate = m.currstate := by
    intro m
    obtain ⟨t, lock, q, heq, -⟩ := updateBatteryTemperature_sent D m sendTemp temp
    rw [heq]
  simp only [healthdEvents, htemp]
  split_ifs
  · rcases sendChargerMsg_cases w.manager sendPlug .plugin with h | h <;> rw [h]
  · rcases sendChargerMsg_cases w.manager sendPlug .plugout with h | h <;> rw [h]
  · rfl

omit hadapter in
theorem thermal_same (D : Desc n) (w : Daemon n) (send : Bool) (temp : Int) :
    (step D w (.thermal send temp)).manager.currstate = w.manager.currstate ∧
      (step D w (.thermal send temp)).changed = w.changed := by
  rw [step]
  split_ifs with hchanged
  · exact ⟨rfl, rfl⟩
  refine ⟨?_, (Bool.not_eq_true _ |>.mp hchanged).symm⟩
  rw [thermalEvents]
  split_ifs
  · obtain ⟨lock, q, heq, -⟩ := checkTempEvent_sent D { w.manager with skinTemp := temp } send
    rw [heq]
  · rfl

theorem Lit.watch (h : Lit w) (input : Input n) : Lit (watch D w input) := by
  have hsafe : Safe (step D w.daemon input) := step_safe h.safe input
  cases input with
  | run R => exact h.run hadapter R
  | healthd sendPlug sendTemp online temp =>
    obtain ⟨hcurr, hchanged⟩ := healthd_same D w.daemon sendPlug sendTemp online temp
    exact h.handled hsafe hcurr hchanged
  | thermal send temp =>
    obtain ⟨hcurr, hchanged⟩ := thermal_same D w.daemon send temp
    exact h.handled hsafe hcurr hchanged
  | timer send =>
    obtain ⟨q, heq, -⟩ := sendChargerMsg_sent w.daemon.manager send .chgTimeout (by decide) (by decide)
    exact h.handled hsafe (by rw [step, heq]) rfl

end

/-- While the battery is charged the adapter is on, exactly unless the charger was unplugged in
`CHARGER_STATE_TEMP_PROTECT` since it was last switched on. -/
theorem adapter_on_iff (D : Desc n) (hadapter : D.adapterExist = true) (inputs : List (Input n)) :
    let w := replay (watch D) .init inputs
    w.daemon.manager.currstate = .chg → w.daemon.changed = false → (w.adapter = true ↔ w.unplugged = false) := by
  intro w hstate _
  have hinit : Lit (Watched.init : Watched n) := ⟨.init, nofun, fun _ => iff_of_true rfl rfl⟩
  have hlit : Lit w := replay_keeps (fun _ input _ h => h.watch hadapter input) hinit
  exact hlit.on (.inr hstate)

theorem adapter_on_plugged :
    let w := replay (watch adapterDesc) .init (overheated.take 3)
    w.daemon.manager.currstate = .chg ∧ w.daemon.changed = false ∧ w.adapter = true :=
  ⟨by decide +kernel, by decide +kernel,
    (adapter_on_iff adapterDesc rfl (overheated.take 3) (by decide +kernel) (by decide +kernel)).mpr
      (by decide +kernel)⟩

def unpluggedHot : List (Input 1) :=
  overheated ++ [.healthd true true false 250, .run (succeeding 250), .run (succeeding 250), .run (succeeding 250),
    .healthd true true true 250, .run (succeeding 250), .run (succeeding 250)]

/-- All calls succeed, and the battery is charged with the adapter off. -/
theorem adapter_off_charging :
    let w := replay (watch adapterDesc) .init unpluggedHot
    adapterDesc.adapterExist = true ∧ w.daemon.manager.currstate = .chg ∧ w.daemon.changed = false ∧
      w.daemon.manager.queue = [] ∧ w.adapter = false := by
  decide +kernel

end NuttxApps.Charger
