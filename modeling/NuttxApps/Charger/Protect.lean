import NuttxApps.Charger.Machine
import NuttxApps.Framework.Replay

/-!
# Thermal protection

The lock is set and cleared by whoever sends a temperature message, so these alternate in the queue and the last one
agrees with the lock (`Alternates`).
-/

namespace NuttxApps.Charger

open Replay List

variable {n : Nat} {D : Desc n} {R : Results n} {m m' : Manager n}

/-- The lock behind the temperature messages of a queue, if each of them changes it. -/
def lockAfter : Bool → List Event → Option Bool
  | lock, [] => some lock
  | false, .overtemp :: q => lockAfter true q
  | true, .overtempRecovery :: q => lockAfter false q
  | _, .overtemp :: _ => none
  | _, .overtempRecovery :: _ => none
  | lock, _ :: q => lockAfter lock q

def Alternates (lock : Bool) (q : List Event) : Prop := ∃ seen, lockAfter seen q = some lock

inductive Sent (lock : Bool) (q : List Event) : Bool → List Event → Prop
  | nothing : Sent lock q lock q
  | other {event : Event} : event ≠ .overtemp → event ≠ .overtempRecovery → Sent lock q lock (q ++ [event])
  | overtemp : lock = false → Sent lock q true (q ++ [.overtemp])
  | recovery : lock = true → Sent lock q false (q ++ [.overtempRecovery])

theorem lockAfter_append (seen : Bool) (q r : List Event) :
    lockAfter seen (q ++ r) = (lockAfter seen q).bind (lockAfter · r) := by
  induction q generalizing seen with
  | nil => rfl
  | cons event q ih => cases event <;> cases seen <;> simp [lockAfter, ih]

section

variable {lock lock' : Bool} {q q' : List Event} (h : Sent lock q lock' q')

include h

theorem Sent.alternates (halt : Alternates lock q) : Alternates lock' q' := by
  obtain ⟨seen, hseen⟩ := halt
  refine ⟨seen, ?_⟩
  cases h with
  | nothing => exact hseen
  | @other event hover hrecovery =>
    rw [lockAfter_append, hseen]
    cases event <;> first | contradiction | cases lock <;> rfl
  | overtemp hlock => rw [lockAfter_append, hseen, hlock]; rfl
  | recovery hlock => rw [lockAfter_append, hseen, hlock]; rfl

theorem Sent.locked (hlock : lock' = true) (hq : .overtemp ∉ q') : lock = true ∧ .overtemp ∉ q := by
  cases h with
  | nothing => exact ⟨hlock, hq⟩
  | other => exact ⟨hlock, fun h => hq (mem_append_left _ h)⟩
  | overtemp => exact absurd (mem_append_right _ (mem_singleton.mpr rfl)) hq
  | recovery => exact absurd hlock Bool.false_ne_true

end

variable {d : Devices n} {lock : Bool} {event : Event} {q : List Event}

theorem overtemp_mem_of_lockAfter (h : lockAfter false q = some true) : .overtemp ∈ q := by
  induction q with
  | nil => exact absurd h (by simp [lockAfter])
  | cons event q ih =>
    cases event with
    | overtemp => exact mem_cons_self
    | overtempRecovery => exact absurd h (by simp [lockAfter])
    | plugin | plugout | chgTimeout => exact mem_cons_of_mem _ (ih h)

theorem Alternates.tail (h : Alternates lock (event :: q)) : Alternates lock q := by
  obtain ⟨seen, hseen⟩ := h
  cases event <;> cases seen <;> first | exact ⟨_, hseen⟩ | exact absurd hseen (by simp [lockAfter])

theorem Alternates.overtemp_mem (h : Alternates true (.overtempRecovery :: q)) : .overtemp ∈ q := by
  obtain ⟨seen, hseen⟩ := h
  cases seen with
  | false => exact absurd hseen (by simp [lockAfter])
  | true => exact overtemp_mem_of_lockAfter hseen

section

variable (m : Manager n) (ok : Bool) (msg : Event)

theorem sendChargerMsg_cases :
    sendChargerMsg m ok msg = ({ m with queue := m.queue ++ [msg] }, true) ∨ sendChargerMsg m ok msg = (m, false) := by
  rw [sendChargerMsg]
  split_ifs
  · exact .inl rfl
  · exact .inr rfl

theorem sendChargerMsg_sent (hover : msg ≠ .overtemp)
    (hrecovery : msg ≠ .overtempRecovery) :
    ∃ q, (sendChargerMsg m ok msg).1 = { m with queue := q } ∧ Sent m.tempProtectLock m.queue m.tempProtectLock q := by
  rcases sendChargerMsg_cases m ok msg with h | h
  · exact ⟨_, by rw [h], .other hover hrecovery⟩
  · exact ⟨_, by rw [h], .nothing⟩

end

section

variable (D : Desc n)

section

variable (m : Manager n) (send : Bool)

theorem checkTempEvent_sent :
    ∃ lock q, (checkTempEvent D m send).1 = { m with tempProtectLock := lock, queue := q } ∧
      Sent m.tempProtectLock m.queue lock q := by
  simp only [checkTempEvent]
  by_cases hover : ((overBattery D m || overSkin D m) && !m.tempProtectLock) = true
  · have hlock : m.tempProtectLock = false := by simpa using (Bool.and_eq_true_iff.mp hover).2
    rw [if_pos hover]
    rcases sendChargerMsg_cases m send .overtemp with h | h
    · exact ⟨_, _, by rw [h]; rfl, .overtemp hlock⟩
    · exact ⟨_, _, by rw [h]; rfl, .nothing⟩
  rw [if_neg hover]
  by_cases hrecovery : (m.tempProtectLock && !overBattery D m && !overSkin D m) = true
  · have hlock : m.tempProtectLock = true := (Bool.and_eq_true_iff.mp (Bool.and_eq_true_iff.mp hrecovery).1).1
    rw [if_pos hrecovery]
    rcases sendChargerMsg_cases m send .overtempRecovery with h | h
    · exact ⟨_, _, by rw [h]; rfl, .recovery hlock⟩
    · exact ⟨_, _, by rw [h]; rfl, .nothing⟩
  · rw [if_neg hrecovery]
    exact ⟨_, _, rfl, .nothing⟩

theorem updateBatteryTemperature_sent (temp : Int) :
    ∃ t lock q, (updateBatteryTemperature D m send temp).1 =
        { m with batteryTemp := t, tempProtectLock := lock, queue := q } ∧
      Sent m.tempProtectLock m.queue lock q := by
  rw [updateBatteryTemperature]
  split_ifs
  · obtain ⟨lock, q, heq, hsent⟩ := checkTempEvent_sent D { m with batteryTemp := temp } send
    exact ⟨temp, lock, q, heq, hsent⟩
  · exact ⟨_, _, _, rfl, .nothing⟩

end

section

variable (R : Results n) (m : Manager n)

theorem checkBatteryFull_eq : ∃ cnt, (checkBatteryFull D R m).1 = { m with fullCnt := cnt } := by
  rw [checkBatteryFull]
  split
  · split_ifs
    · exact ⟨_, rfl⟩
    · exact ⟨_, rfl⟩
  · exact ⟨_, rfl⟩

theorem updateChargerProtocol_eq : ∃ type, (updateChargerProtocol D R m).1 = { m with protocol := type } := by
  rw [updateChargerProtocol]
  split_ifs
  · split
    · exact ⟨_, rfl⟩
    · exact ⟨_, rfl⟩
  · exact ⟨_, rfl⟩

end

theorem checkChargerPlot_eq (m : Manager n) (temp vol : Int) :
    ∃ last, (checkChargerPlot D m temp vol).1 = { m with lastPa := last } := by
  rw [checkChargerPlot]
  split
  · exact ⟨_, rfl⟩
  · split <;> exact ⟨_, rfl⟩

end

theorem chargerTimerStart_eq (R : Results n) (m : Manager n) :
    ∃ timer, (chargerTimerStart R m).1 = { m with envTimer := timer } := by
  rw [chargerTimerStart]
  split_ifs <;> exact ⟨_, rfl⟩

def Owned (m : Manager n) : Prop := ∀ i, m.devices.enabled i → m.currCharger = some i

theorem enabled_disableAll (d : Devices n) (i : Fin n) : d.disableAll.enabled i = false := by
  have hfold : ∀ (l : List (Fin n)) (d : Devices n),
      (l.foldl (·.operate · false) d).enabled i = (d.enabled i && decide (i ∉ l)) := by
    intro l
    induction l with
    | nil => simp
    | cons j l ih =>
      intro d
      rw [foldl_cons, ih, enabled_operate]
      by_cases hij : i = j
      · simp [hij]
      · simp [hij]
  simp [Devices.disableAll, hfold]

theorem Owned.off (h : Owned m) (hcurr : m.currCharger = none) (i : Fin n) : m.devices.enabled i = false := by
  rw [← Bool.not_eq_true]
  intro hi
  exact absurd (hcurr.symm.trans (h i hi)) (by simp)

theorem Owned.off_of_stop (h : Owned m) {seq : Fin n} (hcurr : m.currCharger = some seq) (i : Fin n) :
    (algoStop D.supplyExist R m.devices seq).1.enabled i = false := by
  rw [← Bool.not_eq_true]
  intro hi
  obtain ⟨hne, hi⟩ := enabled_of_stop hi
  exact hne (Option.some.inj ((h i hi).symm.trans hcurr))

theorem owner_of_off {curr : Option (Fin n)} (hoff : ∀ i, d.enabled i = false) (i : Fin n)
    (hi : d.enabled i = true) : curr = some i :=
  absurd ((hoff i).symm.trans hi) Bool.false_ne_true

theorem eq_of_enabled_start {index i : Fin n} (hoff : ∀ i, d.enabled i = false)
    (h : ((D.algo index).start D.supplyExist R d index).1.enabled i) : some index = some i := by
  rcases enabled_of_start h with rfl | hi
  · rfl
  · exact owner_of_off hoff i hi

section

variable (D : Desc n) (R : Results n)

theorem chargerChgProcAlgostop_eq (m : Manager n) :
    ∃ d, chargerChgProcAlgostop D R m = { m with devices := d, currCharger := none } ∧
      (Owned m → ∀ i, d.enabled i = false) := by
  rcases hcurr : m.currCharger with _ | seq
  · refine ⟨m.devices, ?_, fun howned => howned.off hcurr⟩
    rw [chargerChgProcAlgostop, hcurr]
    dsimp only
    rw [← hcurr]
  · refine ⟨(algoStop D.supplyExist R m.devices seq).1, ?_, fun howned => howned.off_of_stop hcurr⟩
    rw [chargerChgProcAlgostop, hcurr]

theorem chargerChgProcPlot_eq (m : Manager n) (pa : PlotParameter n) (index : Fin n) :
    ∃ curr d, (chargerChgProcPlot D R m pa index).1 = { m with currCharger := curr, devices := d } ∧
      (Owned m → ∀ i, d.enabled i → curr = some i) := by
  rw [chargerChgProcPlot]
  rcases hcurr : m.currCharger with _ | seq
  · exact ⟨_, _, rfl, fun howned i hi => eq_of_enabled_start (howned.off hcurr) hi⟩
  · dsimp only
    split_ifs
    · refine ⟨some seq, _, by rw [← hcurr], fun howned i hi => ?_⟩
      rw [enabled_update] at hi
      rw [← hcurr, howned i hi]
    · exact ⟨some seq, _, by rw [← hcurr], fun howned => owner_of_off (howned.off_of_stop hcurr)⟩
    · exact ⟨_, _, rfl, fun howned i hi => eq_of_enabled_start (howned.off_of_stop hcurr) hi⟩
    · refine ⟨_, _, rfl, fun howned i hi => ?_⟩
      rw [enabled_update] at hi
      exact eq_of_enabled_start (howned.off_of_stop hcurr) hi

theorem checkFaultPlot_eq (hcurr : m.currCharger = none) :
    ∃ curr d, (checkFaultPlot D R m).1 = { m with currCharger := curr, devices := d } ∧
      (Owned m → ∀ i, d.enabled i → curr = some i) := by
  simp only [checkFaultPlot]
  split
  swap
  · exact ⟨_, _, rfl, id⟩
  rename_i index temp vol _ _ _
  split_ifs
  · refine ⟨_, _, rfl, fun howned i hi => ?_⟩
    rw [enabled_update] at hi
    exact eq_of_enabled_start (howned.off hcurr) hi
  · obtain ⟨d, heq, hoff⟩ := chargerChgProcAlgostop_eq D R { m with
      currCharger := some index
      devices := ((D.algo index).update D.supplyExist R
        ((D.algo index).start D.supplyExist R m.devices index).1 index D.fault).1 }
    rw [heq]
    refine ⟨_, _, rfl, fun howned => owner_of_off (hoff fun j hj => ?_)⟩
    rw [enabled_update] at hj
    exact eq_of_enabled_start (howned.off hcurr) hj
  · exact ⟨_, _, rfl, id⟩

theorem chargerFaultProc_eq (hcurr : m.currCharger = none) :
    ∃ curr d, chargerFaultProc D R m = { m with currCharger := curr, devices := d } ∧
      (Owned m → ∀ i, d.enabled i → curr = some i) := by
  obtain ⟨curr, d, heq, hd⟩ := checkFaultPlot_eq D R hcurr
  simp only [chargerFaultProc]
  rw [heq]
  split_ifs
  · exact ⟨_, _, rfl, hd⟩
  · exact ⟨_, _, rfl, fun _ => owner_of_off (enabled_disableAll _)⟩

end

/-! ## A run of the state machine -/

/-- What a state function does: it sends at most one message, keeps the state and the owner of an enabled charger, and
has stopped the algorithm where it goes to another state or charges nothing. -/
structure Runs (m m' : Manager n) : Prop where
  currstate : m'.currstate = m.currstate
  sent : Sent m.tempProtectLock m.queue m'.tempProtectLock m'.queue
  owned : Owned m → Owned m'
  stopped : m'.nextstate ≠ m.currstate ∨ m.currstate ≠ .chg ∧ m.currstate ≠ .fault → m'.currCharger = none

/-- Before a run the next state is the current one, and there is no algorithm where nothing is charged. -/
structure Ready (m : Manager n) : Prop where
  nextstate : m.nextstate = m.currstate
  idle : m.currstate ≠ .chg → m.currstate ≠ .fault → m.currCharger = none
  owned : Owned m

theorem Runs.same (h : Ready m) : Runs m m := by
  refine ⟨rfl, .nothing, id, fun hstop => ?_⟩
  rcases hstop with hnext | hidle
  · exact absurd h.nextstate hnext
  · exact h.idle hidle.1 hidle.2

theorem Runs.of_off (hcurr : m'.currstate = m.currstate)
    (hsent : Sent m.tempProtectLock m.queue m'.tempProtectLock m'.queue) (hcharger : m'.currCharger = none)
    (hoff : ∀ i, m'.devices.enabled i = false) : Runs m m' :=
  ⟨hcurr, hsent, fun _ => owner_of_off hoff, fun _ => hcharger⟩

section

variable (h : Ready m)

include h

theorem Runs.of_idle (hstate : m.currstate ≠ .chg ∧ m.currstate ≠ .fault)
    (hcurr : m'.currstate = m.currstate) (hsent : Sent m.tempProtectLock m.queue m'.tempProtectLock m'.queue)
    (hcharger : m'.currCharger = m.currCharger)
    (hdevices : m'.devices = m.devices ∨ m'.devices = m.devices.disableAll) : Runs m m' := by
  refine ⟨hcurr, hsent, fun howned i hi => ?_, fun _ => hcharger.trans (h.idle hstate.1 hstate.2)⟩
  rcases hdevices with hd | hd
  · rw [hd] at hi
    exact hcharger.trans (howned i hi)
  · rw [hd] at hi
    exact owner_of_off (enabled_disableAll _) i hi

theorem chargerStateInit_runs (hstate : m.currstate = .init) (event : Option Event) :
    Runs m (chargerStateInit D R m event) := by
  have hidle : m.currstate ≠ .chg ∧ m.currstate ≠ .fault := by rw [hstate]; decide
  rcases event with _ | (_ | _ | _ | _ | _)
  · simp only [chargerStateInit, chargerTimerStop]
    split_ifs
    · exact .of_idle h hidle rfl .nothing rfl (.inl rfl)
    · exact .same h
  · obtain ⟨timer, htimer⟩ := chargerTimerStart_eq R m
    obtain ⟨type, htype⟩ := updateChargerProtocol_eq D R (chargerTimerStart R m).1
    simp only [chargerStateInit, htype]
    rw [htimer]
    split_ifs <;> exact .of_idle h hidle rfl .nothing rfl (.inl rfl)
  all_goals exact .same h

theorem chargerStateTempProtect_runs (hstate : m.currstate = .tempProtect) (event : Option Event) :
    Runs m (chargerStateTempProtect D R m event) := by
  have hidle : m.currstate ≠ .chg ∧ m.currstate ≠ .fault := by rw [hstate]; decide
  rcases event with _ | (_ | _ | _ | _ | _)
  case none => exact .of_idle h hidle rfl .nothing rfl (.inr rfl)
  case some.plugout | some.overtempRecovery => exact .of_idle h hidle rfl .nothing rfl (.inl rfl)
  case some.chgTimeout =>
    simp only [chargerStateTempProtect]
    split
    · exact .same h
    · rename_i temp _
      obtain ⟨t, lock, q, heq, hsent⟩ := updateBatteryTemperature_sent D m R.send temp
      rw [heq]
      exact .of_idle h hidle rfl hsent rfl (.inl rfl)
  all_goals exact .same h

theorem chargerStateFull_runs (hstate : m.currstate = .full) (event : Option Event) :
    Runs m (chargerStateFull D m event) := by
  have hidle : m.currstate ≠ .chg ∧ m.currstate ≠ .fault := by rw [hstate]; decide
  rcases event with _ | (_ | _ | _ | _ | _)
  case some.chgTimeout =>
    obtain ⟨cnt, hcnt⟩ : ∃ cnt, (updateFullbattTimer D m).1 = { m with fullbattTimerCnt := cnt } := ⟨_, rfl⟩
    simp only [chargerStateFull]
    split_ifs <;> exact .of_idle h hidle rfl .nothing rfl (.inl rfl)
  all_goals exact .of_idle h hidle rfl .nothing rfl (.inl rfl)

end

theorem chargerChgProcCharge_eq (D : Desc n) (R : Results n) (m : Manager n) :
    ∃ type t lock q last curr d, (chargerChgProcCharge D R m).1 =
        { m with protocol := type, batteryTemp := t, tempProtectLock := lock, queue := q, lastPa := last,
                 currCharger := curr, devices := d } ∧
      Sent m.tempProtectLock m.queue lock q ∧ (Owned m → ∀ i, d.enabled i → curr = some i) := by
  obtain ⟨type, htype⟩ := updateChargerProtocol_eq D R m
  simp only [chargerChgProcCharge]
  rw [htype]
  split_ifs
  · exact ⟨_, _, _, _, _, _, _, rfl, .nothing, id⟩
  split
  · exact ⟨_, _, _, _, _, _, _, rfl, .nothing, id⟩
  rename_i temp _
  obtain ⟨t, lock, q, hupdated, hsent⟩ := updateBatteryTemperature_sent D { m with protocol := type } R.send temp
  rw [hupdated]
  split_ifs
  · exact ⟨_, _, _, _, _, _, _, rfl, hsent, id⟩
  split
  · exact ⟨_, _, _, _, _, _, _, rfl, hsent, id⟩
  rename_i vol _
  obtain ⟨last, hlast⟩ := checkChargerPlot_eq D
    { m with protocol := type, batteryTemp := t, tempProtectLock := lock, queue := q } temp vol
  rw [hlast]
  split
  · obtain ⟨curr, d, heq, howned⟩ := chargerChgProcPlot_eq D R _ D.fault (D.fault.chargerIndex.get D.fault_valid)
    rw [heq]
    exact ⟨_, _, _, _, _, _, _, rfl, hsent, howned⟩
  · split
    · obtain ⟨d, heq, hoff⟩ := chargerChgProcAlgostop_eq D R _
      rw [heq]
      exact ⟨_, _, _, _, _, _, _, rfl, hsent, fun howned => owner_of_off (hoff howned)⟩
    · obtain ⟨curr, d, heq, howned⟩ := chargerChgProcPlot_eq D R _ _ _
      rw [heq]
      exact ⟨_, _, _, _, _, _, _, rfl, hsent, howned⟩

section

variable (h : Ready m) (hstate : m.currstate = .chg)

include h hstate

theorem chargerChgProc_runs : Runs m (chargerChgProc D R m) := by
  obtain ⟨cnt, hcnt⟩ := checkBatteryFull_eq D R m
  simp only [chargerChgProc]
  rw [hcnt]
  have howned : Owned { m with fullCnt := cnt } := h.owned
  obtain ⟨type, t, lock, q, last, curr, d, heq, hsent, hd⟩ := chargerChgProcCharge_eq D R { m with fullCnt := cnt }
  split_ifs
  · obtain ⟨d, heq, hoff⟩ := chargerChgProcAlgostop_eq D R { m with fullCnt := cnt }
    rw [heq]
    exact .of_off rfl .nothing rfl (hoff howned)
  · rw [heq]
    exact ⟨rfl, hsent, fun _ => hd howned,
      fun hstop => hstop.elim (absurd h.nextstate) fun hchg => absurd hstate hchg.1⟩
  · rw [heq]
    obtain ⟨d', heq', hoff⟩ := chargerChgProcAlgostop_eq D R
      { m with fullCnt := cnt, protocol := type, batteryTemp := t, tempProtectLock := lock, queue := q,
               lastPa := last, currCharger := curr, devices := d }
    rw [heq']
    exact .of_off rfl hsent rfl (hoff (hd howned))

theorem chargerStateChg_runs (event : Option Event) : Runs m (chargerStateChg D R m event) := by
  obtain ⟨d, heq, hoff⟩ := chargerChgProcAlgostop_eq D R m
  rcases event with _ | (_ | _ | _ | _ | _)
  case none | some.chgTimeout => exact chargerChgProc_runs h hstate
  case some.plugout | some.overtemp =>
    simp only [chargerStateChg, heq]
    exact .of_off rfl .nothing rfl (hoff h.owned)
  all_goals exact .same h

end

theorem chargerFaultEvent_eq (D : Desc n) (R : Results n) (m : Manager n) (event : Event) :
    ∃ cnt fault next, chargerFaultEvent D R m event =
      { m with fullCnt := cnt, faultTimerCnt := fault, nextstate := next } := by
  cases event
  case chgTimeout =>
    obtain ⟨cnt, hcnt⟩ := checkBatteryFull_eq D R m
    obtain ⟨fault, hfault⟩ : ∃ fault, (updateFaultTimer D { m with fullCnt := cnt }).1 =
      { m with fullCnt := cnt, faultTimerCnt := fault } := ⟨_, rfl⟩
    simp only [chargerFaultEvent]
    rw [hcnt, hfault]
    split_ifs <;> exact ⟨_, _, _, rfl⟩
  all_goals exact ⟨_, _, _, rfl⟩

theorem chargerStateFault_runs (h : Ready m) (hstate : m.currstate = .fault) (event : Option Event)
    (hentry : event = none → m.currCharger = none) : Runs m (chargerStateFault D R m event) := by
  rcases event with _ | event
  · obtain ⟨curr, d, heq, hd⟩ := chargerFaultProc_eq (m := { m with faultTimerCnt := 0 }) D R (hentry rfl)
    simp only [chargerStateFault]
    rw [heq]
    exact ⟨rfl, .nothing, hd, fun hstop => hstop.elim (absurd h.nextstate) fun hidle => absurd hstate hidle.2⟩
  · obtain ⟨cnt, fault, next, heq⟩ := chargerFaultEvent_eq D R m event
    simp only [chargerStateFault]
    rw [heq]
    split_ifs with hnext
    · obtain ⟨d, hstop, hoff⟩ := chargerChgProcAlgostop_eq D R
        { m with fullCnt := cnt, faultTimerCnt := fault, nextstate := next }
      rw [hstop]
      exact .of_off rfl .nothing rfl (hoff h.owned)
    · have hsame := (not_not.mp hnext).trans hstate.symm
      exact ⟨rfl, .nothing, id, fun hstop => hstop.elim (absurd hsame) fun hidle => absurd hstate hidle.2⟩

theorem stateFunc_runs (h : Ready m) (event : Option Event) (hentry : event = none → m.currCharger = none) :
    Runs m (stateFunc D R m event) := by
  rw [stateFunc]
  cases hstate : m.currstate with
  | init => exact chargerStateInit_runs h hstate event
  | chg => exact chargerStateChg_runs h hstate event
  | tempProtect => exact chargerStateTempProtect_runs h hstate event
  | full => exact chargerStateFull_runs h hstate event
  | fault => exact chargerStateFault_runs h hstate event hentry

/-! ## The lock and the states -/

/-- The states in which nothing is charged and that do not go on charging by themselves. -/
def State.protects (s : State) : Prop := s = .init ∨ s = .tempProtect

theorem overtemp_protects (h : Ready m) : (stateFunc D R m (some .overtemp)).nextstate.protects := by
  have hnext := h.nextstate
  rw [stateFunc]
  cases hstate : m.currstate with
  | init => exact .inl (hnext.trans hstate)
  | chg => exact .inr rfl
  | tempProtect => exact .inr (hnext.trans hstate)
  | full => exact .inr rfl
  | fault =>
    have hescape : chargerStateFault D R m (some .overtemp) =
      chargerChgProcAlgostop D R { m with nextstate := .tempProtect } := rfl
    obtain ⟨d, heq, -⟩ := chargerChgProcAlgostop_eq D R { m with nextstate := .tempProtect }
    rw [hescape, heq]
    exact .inr rfl

/-- With the lock set a state that protects the battery is left by the recovery only. -/
theorem protects_of_lock (h : Ready m) (hlock : m.tempProtectLock = true) (hstate : m.currstate.protects)
    {event : Option Event} (hevent : event ≠ some .overtempRecovery) : (stateFunc D R m event).nextstate.protects := by
  have hnext := h.nextstate
  rw [stateFunc]
  rcases hstate with hstate | hstate
  · rw [hstate]
    have hinit : m.nextstate.protects := .inl (hnext.trans hstate)
    rcases event with _ | (_ | _ | _ | _ | _)
    · simp only [chargerStateInit, chargerTimerStop]
      split_ifs <;> exact hinit
    · obtain ⟨timer, htimer⟩ := chargerTimerStart_eq R m
      obtain ⟨type, htype⟩ := updateChargerProtocol_eq D R (chargerTimerStart R m).1
      simp only [chargerStateInit, htype]
      rw [htimer]
      split_ifs
      · exact hinit
      · exact .inr rfl
    all_goals exact hinit
  · rw [hstate]
    have hprotect : m.nextstate.protects := .inr (hnext.trans hstate)
    rcases event with _ | (_ | _ | _ | _ | _)
    case some.plugout => exact .inl rfl
    case some.chgTimeout =>
      simp only [chargerStateTempProtect]
      split
      · exact hprotect
      · rename_i temp _
        obtain ⟨t, lock, q, heq, -⟩ := updateBatteryTemperature_sent D m R.send temp
        rwa [heq]
    case some.overtempRecovery => exact absurd rfl hevent
    all_goals exact hprotect

structure Safe (w : Daemon n) : Prop where
  ready : Ready w.manager
  /-- A state is entered without an algorithm. -/
  entered : w.changed → w.manager.currCharger = none
  alternates : Alternates w.manager.tempProtectLock w.manager.queue
  /-- A set lock has a message to come, or the battery is protected. -/
  locked : w.manager.tempProtectLock = true → .overtemp ∉ w.manager.queue → w.manager.currstate.protects

theorem Safe.init : Safe (.init : Daemon n) where
  ready := ⟨rfl, fun _ _ => rfl, fun _ hi => absurd hi Bool.false_ne_true⟩
  entered := fun h => absurd h Bool.false_ne_true
  alternates := ⟨false, rfl⟩
  locked := fun h => absurd h Bool.false_ne_true

theorem Safe.stateRun {event : Option Event} (h : Ready m) (hentry : event = none → m.currCharger = none)
    (halt : Alternates m.tempProtectLock m.queue)
    (hprotect : m.tempProtectLock = true → .overtemp ∉ m.queue → (stateFunc D R m event).nextstate.protects) :
    Safe (stateRun D R m event) := by
  have hruns := stateFunc_runs h event hentry (D := D) (R := R)
  have howned := hruns.owned h.owned
  have halt' := hruns.sent.alternates halt
  have hprotect' : (stateFunc D R m event).tempProtectLock = true → .overtemp ∉ (stateFunc D R m event).queue →
      (stateFunc D R m event).nextstate.protects := by
    intro hlock hqueue
    obtain ⟨hlock, hqueue⟩ := hruns.sent.locked hlock hqueue
    exact hprotect hlock hqueue
  have hstopped := hruns.stopped
  rw [← hruns.currstate] at hstopped
  simp only [Charger.stateRun]
  split_ifs with hchanged
  · have hnone := hstopped (.inl (Ne.symm hchanged))
    exact ⟨⟨rfl, fun _ _ => hnone, howned⟩, fun _ => hnone, halt', hprotect'⟩
  · have hsame := not_not.mp hchanged
    refine ⟨⟨hsame.symm, fun hchg hfault => hstopped (.inr ⟨hchg, hfault⟩), howned⟩,
      fun h => absurd h Bool.false_ne_true, halt', ?_⟩
    rw [hsame]
    exact hprotect'

section

variable {w : Daemon n} (h : Safe w)

include h

theorem Safe.sent (hcurr : m'.currstate = w.manager.currstate)
    (hnext : m'.nextstate = w.manager.nextstate) (hcharger : m'.currCharger = w.manager.currCharger)
    (hdevices : m'.devices = w.manager.devices)
    (hsent : Sent w.manager.tempProtectLock w.manager.queue m'.tempProtectLock m'.queue) : Safe ⟨m', w.changed⟩ := by
  refine ⟨⟨?_, ?_, ?_⟩, ?_, hsent.alternates h.alternates, fun hlock hqueue => ?_⟩
  · rw [hcurr, hnext]
    exact h.ready.nextstate
  · rw [hcurr, hcharger]
    exact h.ready.idle
  · rw [Owned, hcharger, hdevices]
    exact h.ready.owned
  · dsimp only
    rw [hcharger]
    exact h.entered
  · obtain ⟨hlock, hqueue⟩ := hsent.locked hlock hqueue
    rw [hcurr]
    exact h.locked hlock hqueue

theorem healthdEvents_safe (sendPlug sendTemp online : Bool) (temp : Int) :
    Safe ⟨healthdEvents D w.manager sendPlug sendTemp online temp, w.changed⟩ := by
  have htemp : ∀ {m : Manager n}, Safe ⟨m, w.changed⟩ →
      Safe ⟨(updateBatteryTemperature D m sendTemp temp).1, w.changed⟩ := by
    intro m hm
    obtain ⟨t, lock, q, heq, hsent⟩ := updateBatteryTemperature_sent D m sendTemp temp
    rw [heq]
    exact hm.sent rfl rfl rfl rfl hsent
  apply htemp
  obtain ⟨q, heq, hsent⟩ := sendChargerMsg_sent w.manager sendPlug (if online then .plugin else .plugout)
    (by cases online <;> decide) (by cases online <;> decide)
  rw [heq]
  split
  · exact h.sent rfl rfl rfl rfl hsent
  · exact h

theorem thermalEvents_safe (send : Bool) (temp : Int) : Safe ⟨thermalEvents D w.manager send temp, w.changed⟩ := by
  rw [thermalEvents]
  split_ifs
  · obtain ⟨lock, q, heq, hsent⟩ := checkTempEvent_sent D { w.manager with skinTemp := temp } send
    rw [heq]
    exact h.sent rfl rfl rfl rfl hsent
  · exact h

theorem receive_safe {event : Event} {rest : List Event} (hqueue : w.manager.queue = event :: rest) (R : Results n) :
    Safe (stateRun D R { w.manager with queue := rest } (some event)) := by
  have hready : Ready { w.manager with queue := rest } := ⟨h.ready.nextstate, h.ready.idle, h.ready.owned⟩
  have halt := h.alternates
  rw [hqueue] at halt
  refine .stateRun hready (fun hnone => nomatch hnone) halt.tail fun hlock hrest => ?_
  by_cases hevent : event = .overtemp
  · rw [hevent]
    exact overtemp_protects hready
  · -- no message is to come, so that the battery was protected, and the message is not a recovery
    have hprotects : w.manager.currstate.protects := by
      refine h.locked hlock ?_
      rw [hqueue, mem_cons, not_or]
      exact ⟨fun he => hevent he.symm, hrest⟩
    refine protects_of_lock hready hlock hprotects fun hrecovery => ?_
    rw [Option.some.inj hrecovery, show w.manager.tempProtectLock = true from hlock] at halt
    exact hrest halt.overtemp_mem

theorem step_safe (input : Input n) : Safe (step D w input) := by
  cases input with
  | healthd sendPlug sendTemp online temp =>
    rw [step]
    split_ifs with hchanged
    · exact h
    · have := healthdEvents_safe (D := D) h sendPlug sendTemp online temp
      rwa [Bool.not_eq_true _ |>.mp hchanged] at this
  | thermal send temp =>
    rw [step]
    split_ifs with hchanged
    · exact h
    · have := thermalEvents_safe (D := D) h send temp
      rwa [Bool.not_eq_true _ |>.mp hchanged] at this
  | timer send =>
    obtain ⟨q, heq, hsent⟩ := sendChargerMsg_sent w.manager send .chgTimeout (by decide) (by decide)
    rw [step, heq]
    exact h.sent rfl rfl rfl rfl hsent
  | run R =>
    rw [step]
    split_ifs with hchanged
    · exact .stateRun h.ready (fun _ => h.entered hchanged) h.alternates fun hlock hqueue =>
        protects_of_lock h.ready hlock (h.locked hlock hqueue) (by simp)
    · split
      · exact h
      · rename_i event rest hqueue
        exact receive_safe h hqueue R

end

/-- While the battery or the skin is too hot or too cold and every message has been handled, nothing is charged. -/
theorem temp_protect_safe (D : Desc n) (inputs : List (Input n)) :
    let m := (replay (step D) .init inputs).manager
    m.queue = [] → m.tempProtectLock = true →
      (m.currstate = .init ∨ m.currstate = .tempProtect) ∧ m.currCharger = none ∧ ∀ i, m.devices.enabled i = false := by
  intro m hqueue hlock
  have hsafe : Safe (replay (step D) .init inputs) := replay_keeps (fun _ input _ h => step_safe h input) .init
  have hstate : m.currstate.protects := hsafe.locked hlock (by rw [hqueue]; exact not_mem_nil)
  have hcurr : m.currCharger = none := by
    rcases hstate with h | h <;> exact hsafe.ready.idle (by rw [h]; decide) (by rw [h]; decide)
  exact ⟨hstate, hcurr, hsafe.ready.owned.off hcurr⟩

def buckDesc : Desc 1 where
  supplyExist := false
  adapterExist := false
  algo := fun _ => .buck
  pollingIntervalMs := 1000
  fullbattCapacity := 100
  fullbattCurrent := 50
  fullbattDurationMs := 60000
  faultDurationMs := 60000
  tempMin := 0
  tempMinR := 20
  tempMax := 450
  tempMaxR := 430
  tempSkinMin := -100
  tempSkinMinR := -80
  tempSkinMax := 500
  tempSkinMaxR := 480
  tempRiseHys := 10
  tempFallHys := 10
  volRiseHys := 10
  volFallHys := 10
  plots := [⟨[⟨0, 450, 3000, 4400, some 0, 500, 0⟩], 1⟩]
  fault := ⟨0, 450, 3000, 4400, some 0, 100, 0⟩
  fault_valid := rfl

def adapterDesc : Desc 1 := { buckDesc with adapterExist := true }

def threeRanges : Desc 1 :=
  { buckDesc with
    plots :=
      [⟨[⟨0, 150, 3000, 4000, some 0, 300, 0⟩, ⟨150, 300, 3000, 4400, some 0, 500, 0⟩,
          ⟨300, 450, 3000, 4400, some 0, 400, 0⟩], 1⟩,
        ⟨[⟨150, 450, 3000, 4400, some 0, 900, 0⟩], 2⟩] }

/-- Two ranges next to each other, for the same voltages. -/
def twoRanges : Desc 1 :=
  { buckDesc with plots := [⟨[⟨0, 150, 3000, 4400, some 0, 300, 0⟩, ⟨150, 300, 3000, 4400, some 0, 500, 0⟩], 1⟩] }

def succeeding (temp : Int) : Results 1 :=
  ⟨true, true, true, true, some 0, some 60, some 300, some temp, some 3800, some 3800, some 300, fun _ => true,
    fun _ => some 0, fun _ => true, true, some 0, some 0, some 300, true, some 5000, true, true, true⟩

def overheated : List (Input 1) :=
  [.healthd true true true 250, .run (succeeding 250), .run (succeeding 250), .timer true, .run (succeeding 460),
    .run (succeeding 460), .run (succeeding 460)]

theorem overheated_safe :
    let m := (replay (step buckDesc) .init overheated).manager
    (m.currstate = .init ∨ m.currstate = .tempProtect) ∧ m.currCharger = none ∧ ∀ i, m.devices.enabled i = false :=
  temp_protect_safe buckDesc overheated (by decide +kernel) (by decide +kernel)

example : (replay (step buckDesc) .init (overheated.take 4)).manager.devices.enabled 0 = true := by decide +kernel

end NuttxApps.Charger
