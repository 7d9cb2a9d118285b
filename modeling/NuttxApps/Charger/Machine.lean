import NuttxApps.Charger.Devices
import Mathlib.Algebra.GroupWithZero.Nat
import Mathlib.Algebra.Ring.Int.Defs

/-!
# The state machine of the charger daemon

The handlers of the battery and the skin temperature, and the timer, put messages into a queue; `state_events` runs the
state machine on the first one, and again without a message as long as the state has changed. A `step` is one handler or
one run, so that the timer can put a message between two runs of one message.
-/

namespace NuttxApps.Charger

inductive State
  | init
  | chg
  | tempProtect
  | full
  | fault
deriving DecidableEq

inductive Event
  | plugin
  | plugout
  | chgTimeout
  | overtemp
  | overtempRecovery
deriving DecidableEq

structure Plot (n : Nat) where
  tlbs : List (PlotParameter n)
  mask : Nat

/-- `struct charger_desc` and the devices that exist. The fault entry has a charger. -/
structure Desc (n : Nat) where
  (supplyExist adapterExist : Bool)
  algo : Fin n → Algo
  (pollingIntervalMs fullbattCapacity : Nat)
  fullbattCurrent : Int
  (fullbattDurationMs faultDurationMs : Nat)
  (tempMin tempMinR tempMax tempMaxR tempSkinMin tempSkinMinR tempSkinMax tempSkinMaxR : Int)
  (tempRiseHys tempFallHys volRiseHys volFallHys : Int)
  plots : List (Plot n)
  fault : PlotParameter n
  fault_valid : fault.chargerIndex.isSome

structure Entry (n : Nat) where
  (plot seq : Nat)
  pa : PlotParameter n

/-- `struct charger_manager`, the static variables of `check_battery_full` and `check_charger_plot`, and the message
queue. -/
structure Manager (n : Nat) where
  (currstate nextstate : State)
  online : Bool
  (skinTemp batteryTemp : Int)
  (tempProtectLock envTimer : Bool)
  (fullbattTimerCnt faultTimerCnt : Nat)
  currCharger : Option (Fin n)
  protocol : Nat
  devices : Devices n
  fullCnt : Nat
  lastPa : Option (Entry n)
  queue : List Event

variable {n : Nat} (D : Desc n) (R : Results n) (m : Manager n)

def Manager.init : Manager n where
  currstate := .init
  nextstate := .init
  online := false
  skinTemp := 0
  batteryTemp := 0
  tempProtectLock := false
  envTimer := false
  fullbattTimerCnt := 0
  faultTimerCnt := 0
  currCharger := none
  protocol := 0
  devices := .init
  fullCnt := 0
  lastPa := none
  queue := []

/-- `send_charger_msg`; the queue has `MQ_MSG_LOAD_MAX` places. -/
def sendChargerMsg (ok : Bool) (msg : Event) : Manager n × Bool :=
  if ok && m.queue.length < 10 then ({ m with queue := m.queue ++ [msg] }, true) else (m, false)

/-- The battery is out of its range. Once it was, the range is the one of the recovery. -/
def overBattery : Bool :=
  let tmin := if m.tempProtectLock then D.tempMinR else D.tempMin
  let tmax := if m.tempProtectLock then D.tempMaxR else D.tempMax
  m.batteryTemp ≥ tmax || m.batteryTemp ≤ tmin

def overSkin : Bool :=
  let smin := if m.tempProtectLock then D.tempSkinMinR else D.tempSkinMin
  let smax := if m.tempProtectLock then D.tempSkinMaxR else D.tempSkinMax
  m.skinTemp ≥ smax || m.skinTemp ≤ smin

variable (event : Option Event) (send : Bool)

def checkTempEvent : Manager n × Bool :=
  if (overBattery D m || overSkin D m) && !m.tempProtectLock then
    let sent := sendChargerMsg m send .overtemp
    if sent.2 then ({ sent.1 with tempProtectLock := true }, true) else sent
  else if m.tempProtectLock && !overBattery D m && !overSkin D m then
    let sent := sendChargerMsg m send .overtempRecovery
    if sent.2 then ({ sent.1 with tempProtectLock := false }, true) else sent
  else (m, true)

def updateBatteryTemperature (temp : Int) : Manager n × Bool :=
  if temp ≠ m.batteryTemp then checkTempEvent D { m with batteryTemp := temp } send else (m, true)

def chargerTimerStop : Manager n := if m.envTimer && R.timerDelete then { m with envTimer := false } else m

def chargerTimerStart : Manager n × Bool :=
  if m.envTimer then (m, true)
  else if !R.timerCreate then (m, false)
  else ({ m with envTimer := true }, R.timerSettime)

/-- `check_battery_full`: the battery seemed full often enough, or cannot be read. The capacity is compared unsigned. -/
def checkBatteryFull : Manager n × Bool :=
  match R.capacity, R.current with
  | some capacity, some current =>
    if capacity % 2 ^ 32 ≥ D.fullbattCapacity ∧ 0 ≤ current ∧ current ≤ D.fullbattCurrent then
      ({ m with fullCnt := m.fullCnt + 1 }, 3 < m.fullCnt)
    else ({ m with fullCnt := 0 }, false)
  | _, _ => (m, true)

def updateFullbattTimer : Manager n × Bool :=
  let cnt := (m.fullbattTimerCnt + 1) % 2 ^ 64
  ({ m with fullbattTimerCnt := cnt }, D.fullbattDurationMs ≤ cnt * D.pollingIntervalMs % 2 ^ 64)

def updateFaultTimer : Manager n × Bool :=
  let cnt := (m.faultTimerCnt + 1) % 2 ^ 64
  ({ m with faultTimerCnt := cnt }, D.faultDurationMs ≤ cnt * D.pollingIntervalMs % 2 ^ 64)

def updateChargerProtocol : Manager n × Bool :=
  if D.adapterExist || 0 < n then
    match R.protocol with
    | some type => ({ m with protocol := type }, true)
    | none => (m, false)
  else ({ m with protocol := 0 }, true)

variable (pa : PlotParameter n) (temp vol : Int)

def PlotParameter.covers : Bool :=
  temp ≥ pa.tempRangeMin && temp ≤ pa.tempRangeMax && vol ≥ pa.volRangeMin && vol ≤ pa.volRangeMax

/-- The entry found or, near the edge of its range, the last one. -/
def hysteresis (entry : Entry n) : Option (Entry n) → Entry n
  | none => entry
  | some last =>
    let pa := entry.pa
    let lastPa := last.pa
    if entry.plot = last.plot ∧ entry.seq = last.seq then entry
    else if pa.tempRangeMin ≠ lastPa.tempRangeMin ∧ pa.tempRangeMax ≠ lastPa.tempRangeMax then
      if pa.tempRangeMin > lastPa.tempRangeMin then
        if temp < pa.tempRangeMin + D.tempRiseHys then last else entry
      else if temp > pa.tempRangeMax - D.tempFallHys then last
      else entry
    else if pa.volRangeMin ≠ lastPa.volRangeMin ∧ pa.volRangeMax ≠ lastPa.volRangeMax then
      if pa.volRangeMin > lastPa.volRangeMin then
        if vol < pa.volRangeMin + D.volRiseHys then last else entry
      else if vol > pa.volRangeMax - D.volFallHys then last
      else entry
    else entry

def checkChargerPlot : Manager n × Option (PlotParameter n) :=
  match D.plots.zipIdx.find? fun plot => plot.1.mask.testBit m.protocol with
  | none => (m, none)
  | some (plot, i) =>
    match plot.tlbs.zipIdx.find? fun pa => pa.1.covers temp vol with
    | none => (m, none)
    | some (pa, j) =>
      let entry := hysteresis D temp vol ⟨i, j, pa⟩ m.lastPa
      ({ m with lastPa := some entry }, some entry.pa)

def Devices.disableAll (d : Devices n) : Devices n := (List.finRange n).foldl (·.operate · false) d

def chargerChgProcAlgostop : Manager n :=
  match m.currCharger with
  | none => m
  | some seq => { m with devices := (algoStop D.supplyExist R m.devices seq).1, currCharger := none }

def chargerChgProcPlot (index : Fin n) : Manager n × Bool :=
  match m.currCharger with
  | none =>
    let started := (D.algo index).start D.supplyExist R m.devices index
    ({ m with currCharger := some index, devices := started.1 }, started.2)
  | some seq =>
    if seq = index then
      let updated := (D.algo seq).update D.supplyExist R m.devices seq pa
      ({ m with devices := updated.1 }, updated.2)
    else
      let stopped := algoStop D.supplyExist R m.devices seq
      if !stopped.2 then ({ m with devices := stopped.1 }, false)
      else
        let started := (D.algo index).start D.supplyExist R stopped.1 index
        if !started.2 then ({ m with currCharger := some index, devices := started.1 }, false)
        else
          let updated := (D.algo index).update D.supplyExist R started.1 index pa
          ({ m with currCharger := some index, devices := updated.1 }, updated.2)

/-- The part of `charger_chg_proc` behind the check for a full battery; without success it goes to `fault`. -/
def chargerChgProcCharge : Manager n × Bool :=
  let protocol := updateChargerProtocol D R m
  if !protocol.2 then (protocol.1, false)
  else
    match R.temp with
    | none => (protocol.1, false)
    | some temp =>
      let updated := updateBatteryTemperature D protocol.1 R.send temp
      if !updated.2 then (updated.1, false)
      else
        match R.voltage with
        | none => (updated.1, false)
        | some vol =>
          let checked := checkChargerPlot D updated.1 temp vol
          match checked.2 with
          | none => chargerChgProcPlot D R checked.1 D.fault (D.fault.chargerIndex.get D.fault_valid)
          | some pa =>
            match pa.chargerIndex with
            | none => (chargerChgProcAlgostop D R checked.1, true)
            | some index => chargerChgProcPlot D R checked.1 pa index

def chargerChgProc : Manager n :=
  let checked := checkBatteryFull D R m
  if checked.2 then { chargerChgProcAlgostop D R checked.1 with nextstate := .full }
  else
    let charged := chargerChgProcCharge D R checked.1
    if charged.2 then charged.1 else { chargerChgProcAlgostop D R charged.1 with nextstate := .fault }

def resume : State := if m.online then .chg else .init

def chargerStateInit : Option Event → Manager n
  | none => chargerTimerStop R m
  | some .plugin =>
    let started := chargerTimerStart R m
    if !started.2 then started.1
    else
      let protocol := updateChargerProtocol D R started.1
      { protocol.1 with
        nextstate := if protocol.1.tempProtectLock then .tempProtect else if !protocol.2 then .fault else .chg }
  | some _ => m

def chargerStateTempProtect : Option Event → Manager n
  | none => { m with devices := m.devices.disableAll }
  | some .overtempRecovery => { m with nextstate := resume m }
  | some .chgTimeout =>
    match R.temp with
    | none => m
    | some temp => (updateBatteryTemperature D m R.send temp).1
  | some .plugout => { m with nextstate := .init }
  | some _ => m

def chargerStateChg : Option Event → Manager n
  | none => chargerChgProc D R m
  | some .plugout => { chargerChgProcAlgostop D R m with nextstate := .init }
  | some .chgTimeout => chargerChgProc D R m
  | some .overtemp => { chargerChgProcAlgostop D R m with nextstate := .tempProtect }
  | some _ => m

def chargerStateFull : Option Event → Manager n
  | none => { m with fullbattTimerCnt := 0 }
  | some .chgTimeout =>
    let updated := updateFullbattTimer D m
    if updated.2 then { updated.1 with nextstate := resume m } else updated.1
  | some .overtemp => { m with nextstate := .tempProtect }
  | some .plugout => { m with nextstate := .init }
  | some _ => m

def checkFaultPlot : Manager n × Bool :=
  match D.fault.chargerIndex, R.temp, R.voltage with
  | some index, some temp, some vol =>
    if D.fault.covers temp vol then
      let started := (D.algo index).start D.supplyExist R m.devices index
      let updated := (D.algo index).update D.supplyExist R started.1 index D.fault
      let m := { m with currCharger := some index, devices := updated.1 }
      if started.2 && updated.2 then (m, true) else (chargerChgProcAlgostop D R m, false)
    else (m, false)
  | _, _, _ => (m, false)

def chargerFaultProc : Manager n :=
  let checked := checkFaultPlot D R m
  if checked.2 then checked.1 else { checked.1 with devices := checked.1.devices.disableAll }

def chargerFaultEvent : Event → Manager n
  | .chgTimeout =>
    let checked := checkBatteryFull D R m
    if checked.2 then { checked.1 with nextstate := .full }
    else
      let updated := updateFaultTimer D checked.1
      if updated.2 then { updated.1 with nextstate := resume m } else updated.1
  | .overtemp => { m with nextstate := .tempProtect }
  | .plugout => { m with nextstate := .init }
  | _ => m

def chargerStateFault : Option Event → Manager n
  | none => chargerFaultProc D R { m with faultTimerCnt := 0 }
  | some event =>
    let handled := chargerFaultEvent D R m event
    if handled.nextstate ≠ .fault then chargerChgProcAlgostop D R handled else handled

def stateFunc : Manager n :=
  match m.currstate with
  | .init => chargerStateInit D R m event
  | .chg => chargerStateChg D R m event
  | .tempProtect => chargerStateTempProtect D R m event
  | .full => chargerStateFull D m event
  | .fault => chargerStateFault D R m event

/-- The manager and the variable `changed` of `state_events`, which is set while the loop goes on. -/
structure Daemon (n : Nat) where
  manager : Manager n
  changed : Bool

def Daemon.init : Daemon n := ⟨.init, false⟩

def stateRun : Daemon n :=
  let ran := stateFunc D R m event
  if ran.currstate ≠ ran.nextstate then ⟨{ ran with currstate := ran.nextstate }, true⟩ else ⟨ran, false⟩

def healthdEvents (sendPlug sendTemp online : Bool) (temp : Int) : Manager n :=
  let plugged :=
    if online ≠ m.online then
      { (sendChargerMsg m sendPlug (if online then .plugin else .plugout)).1 with online := online }
    else m
  (updateBatteryTemperature D plugged sendTemp temp).1

def thermalEvents (temp : Int) : Manager n :=
  if temp ≠ m.skinTemp then (checkTempEvent D { m with skinTemp := temp } send).1 else m

inductive Input (n : Nat)
  /-- A battery state is published. -/
  | healthd (sendPlug sendTemp online : Bool) (temp : Int)
  /-- A skin temperature is published. -/
  | thermal (send : Bool) (temp : Int)
  /-- The timer expires. -/
  | timer (send : Bool)
  /-- The state machine runs: on the first message of the queue or, if the state has changed, without one. -/
  | run (R : Results n)

/-- One step. The loop of `state_events` keeps the other handlers waiting. -/
def step (w : Daemon n) : Input n → Daemon n
  | .healthd sendPlug sendTemp online temp =>
    if w.changed then w else ⟨healthdEvents D w.manager sendPlug sendTemp online temp, false⟩
  | .thermal send temp => if w.changed then w else ⟨thermalEvents D w.manager send temp, false⟩
  | .timer send => ⟨(sendChargerMsg w.manager send .chgTimeout).1, w.changed⟩
  | .run R =>
    if w.changed then stateRun D R w.manager none
    else
      match w.manager.queue with
      | [] => w
      | event :: rest => stateRun D R { w.manager with queue := rest } (some event)

end NuttxApps.Charger
