import Mathlib.Data.Fin.Basic

/-!
# The chargers and their algorithms

`Devices` keeps for every charger the last command that `enable_charger` gave it and the parameters of its algorithm.
`Results` holds what the calls of drivers return in one run of the state machine.
-/

namespace NuttxApps.Charger

structure PlotParameter (n : Nat) where
  (tempRangeMin tempRangeMax volRangeMin volRangeMax : Int)
  chargerIndex : Option (Fin n)
  (workCurrent supplyVol : Int)
deriving DecidableEq

structure Results (n : Nat) where
  /-- `timer_delete`, `timer_create` and `timer_settime`. -/
  timerDelete : Bool
  (timerCreate timerSettime : Bool)
  /-- `mq_send` of a temperature event. -/
  send : Bool
  /-- What `update_charger_protocol`, `check_battery_full`, `charger_chg_proc` and the states read. -/
  protocol : Option Nat
  (capacity current temp voltage : Option Int)
  /-- The start of an algorithm; the pump sets its supply and reads its state repeatedly. -/
  startVoltage : Option Int
  startCurrent : Option Int
  startSupply : Nat → Bool
  startState : Nat → Option Nat
  disable : Fin n → Bool
  enable : Bool
  enableState : Option Nat
  /-- The update of an algorithm. -/
  updateState : Option Nat
  updateCurrent : Option Int
  setCurrent : Bool
  supplyVoltage : Option Int
  updateSupply : Bool
  /-- The stop of an algorithm. -/
  stop : Bool
  stopSupply : Bool

/-- What the daemon last did with the chargers; an algorithm that was just started has the parameters 0, which is
`none`. -/
structure Devices (n : Nat) where
  enabled : Fin n → Bool
  sp : Fin n → Option (PlotParameter n)

variable {n : Nat}

def Devices.init : Devices n := ⟨fun _ => false, fun _ => none⟩

variable (supply : Bool) (R : Results n) (d : Devices n) (seq : Fin n)

def Devices.operate (enable : Bool) : Devices n :=
  { d with enabled := fun i => if i = seq then enable else d.enabled i }

def Devices.setSp (pa : Option (PlotParameter n)) : Devices n :=
  { d with sp := fun i => if i = seq then pa else d.sp i }

def disableOthers (R : Results n) (seq : Fin n) : List (Fin n) → Devices n → Devices n × Bool
  | [], d => (d, true)
  | index :: rest, d =>
    if index = seq then disableOthers R seq rest d
    else if R.disable index then disableOthers R seq rest (d.operate index false)
    else (d.operate index false, false)

def enableCharger : Devices n × Bool :=
  let others := disableOthers R seq (List.finRange n) d
  if others.2 then (others.1.operate seq true, R.enable) else (others.1, false)

inductive Algo
  | buck
  | pump
deriving DecidableEq

variable (pa : PlotParameter n)

def PlotParameter.isZero : Bool :=
  pa.tempRangeMin == 0 && pa.tempRangeMax == 0 && pa.volRangeMin == 0 && pa.volRangeMax == 0 &&
    pa.chargerIndex.any (·.val == 0) && pa.workCurrent == 0 && pa.supplyVol == 0

def isPaChanged : Option (PlotParameter n) → PlotParameter n → Bool
  | none, pa => !pa.isZero
  | some sp, pa => sp != pa

def buckAlgoStart : Devices n × Bool :=
  if supply && !R.startSupply 0 then (d, false)
  else
    let started := enableCharger R d seq
    if started.2 then (started.1.setSp seq none, true) else (started.1, false)

def buckAlgoUpdate : Devices n × Bool :=
  if isPaChanged (d.sp seq) pa then
    if !R.setCurrent then (d, false)
    else if 0 < pa.supplyVol ∧ supply ∧ !R.updateSupply then (d, false)
    else (d.setSp seq (some pa), true)
  else (d, true)

/-- `buck_algo_stop` and `pump_algo_stop`, which set different voltages. -/
def algoStop : Devices n × Bool :=
  (d.operate seq false, R.stop && (!supply || R.stopSupply))

def voutMax : Int := 9100

/-- The voltage after `psvc` steps: `vbase * 1.91`, `PUMP_CONF_VOUT_OFFSET`, and the startup voltage with its offsets,
truncated. -/
def rxVout (vbase : Int) (psvc : Nat) : Int := (191 * vbase + 100 * (578 + (300 + 25 * psvc))).tdiv 100

/-- The loop of `pump_algo_start`, which raises the voltage, up to a maximum, until the charger reports no error on its
bus. -/
def pumpLoop (supply : Bool) (R : Results n) (vbase : Int) : Nat → Nat → Bool
  | 0, _ => false
  | fuel + 1, psvc =>
    if voutMax < rxVout vbase psvc then false
    else
      match R.startState psvc with
      | none => false
      | some errstate =>
        if !(supply && R.startSupply psvc) then false
        else if errstate.testBit 8 || errstate.testBit 9 then pumpLoop supply R vbase fuel (psvc + 1)
        else true

/-- Fuel for the loop: the voltage of the last of these steps is over the maximum. -/
def pumpSteps (vbase : Int) : Nat := (voutMax - rxVout vbase 0).toNat + 2

def pumpAlgoStart : Devices n × Bool :=
  match R.startVoltage, R.startCurrent with
  | some voltage, some current =>
    let vbase := (4 * voltage - current).tdiv 4
    if !pumpLoop supply R vbase (pumpSteps vbase) 0 then (d, false)
    else
      let started := enableCharger R d seq
      if started.2 && R.enableState.any (·.testBit 11) then (started.1.setSp seq none, true)
      else (started.1.operate seq false, false)
  | _, _ => (d, false)

def pumpStep (current : Int) : Bool :=
  if current < pa.workCurrent - 100 ∨ pa.workCurrent + 25 < current then
    R.supplyVoltage.isSome && (supply && R.updateSupply)
  else true

/-- `pump_algo_update`; the bits 0 and 2 are `VBAT_OVP_MASK` and `VBUS_OVP_MASK`. -/
def pumpAlgoUpdate : Devices n × Bool :=
  match R.updateState with
  | none => (d, false)
  | some state =>
    if !state.testBit 11 || state.testBit 0 || state.testBit 2 then (d, false)
    else if isPaChanged (d.sp seq) pa then (d.setSp seq (some pa), R.setCurrent)
    else
      match R.updateCurrent with
      | none => (d, false)
      | some current => (d, pumpStep supply R pa current)

def Algo.start (algo : Algo) : Bool → Results n → Devices n → Fin n → Devices n × Bool :=
  match algo with
  | .buck => buckAlgoStart
  | .pump => pumpAlgoStart

def Algo.update (algo : Algo) : Bool → Results n → Devices n → Fin n → PlotParameter n → Devices n × Bool :=
  match algo with
  | .buck => buckAlgoUpdate
  | .pump => pumpAlgoUpdate

variable {supply : Bool} {R : Results n} {d : Devices n} {seq i : Fin n} {pa : PlotParameter n}

@[simp] theorem enabled_operate (d : Devices n) (seq i : Fin n) (enable : Bool) :
    (d.operate seq enable).enabled i = if i = seq then enable else d.enabled i := rfl

theorem enabled_of_operate (h : (d.operate seq false).enabled i) : i ≠ seq ∧ d.enabled i := by
  rw [enabled_operate] at h
  split_ifs at h with hi
  exact ⟨hi, h⟩

theorem enabled_of_disableOthers {l : List (Fin n)} (h : (disableOthers R seq l d).1.enabled i) : d.enabled i := by
  induction l generalizing d with
  | nil => exact h
  | cons index rest ih =>
    rw [disableOthers] at h
    split_ifs at h
    · exact ih h
    · exact (enabled_of_operate (ih h)).2
    · exact (enabled_of_operate h).2

theorem enabled_of_enableCharger (h : (enableCharger R d seq).1.enabled i) : i = seq ∨ d.enabled i := by
  simp only [enableCharger] at h
  split_ifs at h
  · rw [enabled_operate] at h
    split_ifs at h with hi
    · exact .inl hi
    · exact .inr (enabled_of_disableOthers h)
  · exact .inr (enabled_of_disableOthers h)

theorem enabled_of_start {algo : Algo} (h : (algo.start supply R d seq).1.enabled i) : i = seq ∨ d.enabled i := by
  cases algo with
  | buck =>
    simp only [Algo.start, buckAlgoStart] at h
    split_ifs at h
    · exact .inr h
    · exact enabled_of_enableCharger h
    · exact enabled_of_enableCharger h
  | pump =>
    simp only [Algo.start, pumpAlgoStart] at h
    split at h
    · split_ifs at h
      · exact .inr h
      · exact enabled_of_enableCharger h
      · exact enabled_of_enableCharger (enabled_of_operate h).2
    · exact .inr h

theorem enabled_update (algo : Algo) : (algo.update supply R d seq pa).1.enabled = d.enabled := by
  cases algo with
  | buck =>
    simp only [Algo.update, buckAlgoUpdate]
    split_ifs <;> rfl
  | pump =>
    simp only [Algo.update, pumpAlgoUpdate]
    split
    · rfl
    · split_ifs
      · rfl
      · rfl
      · split <;> rfl

theorem enabled_of_stop (h : (algoStop supply R d seq).1.enabled i) : i ≠ seq ∧ d.enabled i := enabled_of_operate h

end NuttxApps.Charger
