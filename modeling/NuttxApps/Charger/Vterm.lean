import NuttxApps.Framework.Replay
import Mathlib.Algebra.Ring.Int.Defs

/-!
# The termination voltage

`termination_voltage_update` sends the voltage of a range if the index of the range has changed. The index is 0 at
first, though nothing was sent for it, and it is changed before the voltage is sent. `voltage_follows` says when the
voltage that was sent last is the one for the temperature.
-/

namespace NuttxApps.Charger

open Replay List Option

/-- `struct range_data` -/
structure RangeData where
  (low high value : Int)

def isBetween (left right value : Int) : Bool :=
  left ≥ right && left ≥ value && value ≥ right || left ≤ right && left ≤ value && value ≤ right

/-- The entries of a table of `MAX_RANGES` in front of an invalid one. -/
def validRanges (ranges : List RangeData) : List RangeData := (ranges.take 5).takeWhile fun r => r.low ≠ 0 ∨ r.high ≠ 0

/-- `struct temp_vterm_plot`, with contiguous ascending ranges. -/
structure VtermPlot where
  ranges : List RangeData
  (riseHys fallHys : Int)
  rise_nonneg : 0 ≤ riseHys
  fall_nonneg : 0 ≤ fallHys
  low_le : ∀ r ∈ validRanges ranges, r.low ≤ r.high
  contiguous : (validRanges ranges).IsChain fun r r' => r.high ≤ r'.low ∧ r'.low ≤ r.high + 1

variable (P : VtermPlot)

def VtermPlot.entries : List RangeData := validRanges P.ranges

def VtermPlot.entry (i : Nat) : RangeData := P.entries.getD i ⟨0, 0, 0⟩

/-- The range of a temperature, or the last one, before the hysteresis. -/
def VtermPlot.found (threshold : Int) : Nat :=
  (P.entries.findIdx? fun r => isBetween r.low r.high threshold).getD (P.entries.length - 1)

/-- `get_val`: the new index and its value; `none` for `-ENODATA`. The index `none` is `-EINVAL`. -/
def getVal (current : Option Nat) (threshold : Int) : Option (Nat × Int) :=
  if P.entries = [] ∨ threshold < (P.entry 0).low then none
  else
    let new := P.found threshold
    let index :=
      match current with
      | none => new
      | some i =>
        if i + 1 = new ∧ threshold < P.riseHys + (P.entry new).low then i
        else if new + 1 = i ∧ (P.entry new).high - P.fallHys < threshold then i
        else new
    some (index, (P.entry index).value)

/-- What `get_charger_state` answers (`none` if it fails), the temperature, and whether `set_charger_voltage`
succeeds. -/
structure VtermCall where
  charging : Option Bool
  temp : Int
  setok : Bool

/-- `vterm_index`, and the voltage that was sent last. -/
structure Vterm where
  index : Option Nat
  sent : Option Int

variable (s : Vterm) (c : VtermCall)

/-- `termination_voltage_update`, and whether it succeeds. -/
def terminationVoltageUpdate : Vterm × Bool :=
  match c.charging with
  | none => (s, false)
  | some false => (s, true)
  | some true =>
    match getVal P s.index c.temp with
    | none => ({ s with index := none }, false)
    | some (i, v) =>
      if some i = s.index then (s, true)
      else if c.setok then (⟨some i, some v⟩, true)
      else ({ s with index := some i }, false)

/-- Behind `charger_desc_init`. -/
def Vterm.init : Vterm := ⟨some 0, none⟩

def Vterm.step : Vterm := (terminationVoltageUpdate P s c).1

/-- A call that succeeds while the charger is charging leaves the voltage of a range that the temperature is in. -/
def Follows : Prop :=
  c.charging = some true → (terminationVoltageUpdate P s c).2 = true →
    ∃ r ∈ P.entries, (s.step P c).sent = some r.value ∧ r.low - P.fallHys ≤ c.temp ∧ c.temp ≤ r.high + P.riseHys

/-- A temperature is not above the ranges, its range is not the one of the index as long as nothing was sent, and the
voltage of a new range is sent. -/
def Careful : Prop :=
  c.charging = some true → ∀ i v, getVal P s.index c.temp = some (i, v) →
    (∀ r ∈ P.entries.getLast?, c.temp ≤ r.high + P.riseHys) ∧ (some i = s.index → s.sent ≠ none) ∧
      (some i ≠ s.index → c.setok)

section

variable {P : VtermPlot} {s : Vterm} {c : VtermCall} {i : Nat} {v threshold : Int}

theorem entry_eq (hi : i < P.entries.length) : P.entry i = P.entries[i] := by simp [VtermPlot.entry, hi]

theorem mem_entry (hi : i < P.entries.length) : P.entry i ∈ P.entries :=
  entry_eq hi ▸ getElem_mem hi

theorem entry_succ (hi : i + 1 < P.entries.length) :
    (P.entry i).high ≤ (P.entry (i + 1)).low ∧ (P.entry (i + 1)).low ≤ (P.entry i).high + 1 := by
  rw [entry_eq hi, entry_eq (Nat.lt_of_succ_lt hi)]
  exact isChain_iff_getElem.mp P.contiguous i hi

/-- A temperature that is in none of the first ranges is above them. -/
theorem low_le_of_not_between (hlow : (P.entry 0).low ≤ threshold)
    (hnone : ∀ j < i, isBetween (P.entry j).low (P.entry j).high threshold = false) (hi : i < P.entries.length) :
    (P.entry i).low ≤ threshold := by
  induction i with
  | zero => exact hlow
  | succ i ih =>
    have hle := ih (fun j hj => hnone j (Nat.lt_succ_of_lt hj)) (Nat.lt_of_succ_lt hi)
    have hnot := hnone i (Nat.lt_succ_self i)
    have hsucc := entry_succ hi
    simp only [isBetween, Bool.or_eq_false_iff, Bool.and_eq_false_iff, decide_eq_false_iff_not] at hnot
    omega

theorem found_spec (hne : P.entries ≠ []) (hlow : (P.entry 0).low ≤ threshold)
    (hlast : ∀ r ∈ P.entries.getLast?, threshold ≤ r.high + P.riseHys) :
    P.found threshold < P.entries.length ∧ (P.entry (P.found threshold)).low ≤ threshold ∧
      threshold ≤ (P.entry (P.found threshold)).high + P.riseHys := by
  have hpos : 0 < P.entries.length := length_pos_iff.mpr hne
  have hrise := P.rise_nonneg
  rw [VtermPlot.found]
  cases hfind : P.entries.findIdx? fun r => isBetween r.low r.high threshold with
  | some k =>
    obtain ⟨hk, hbetween, -⟩ := findIdx?_eq_some_iff_getElem.mp hfind
    have hlh := P.low_le _ (mem_entry hk)
    rw [← entry_eq hk] at hbetween
    simp only [isBetween, Bool.or_eq_true, Bool.and_eq_true, decide_eq_true_eq] at hbetween
    refine ⟨hk, ?_, ?_⟩ <;> rw [getD_some] <;> omega
  | none =>
    have hlt : P.entries.length - 1 < P.entries.length := by omega
    rw [getD_none]
    refine ⟨hlt, low_le_of_not_between hlow (fun j hj => ?_) hlt, hlast _ ?_⟩
    · have hj' : j < P.entries.length := by omega
      rw [entry_eq hj']
      exact findIdx?_eq_none_iff.mp hfind _ (getElem_mem hj')
    · rw [entry_eq hlt, getLast?_eq_getElem?, getElem?_eq_getElem hlt]
      rfl

theorem getVal_spec (hget : getVal P s.index threshold = some (i, v))
    (hindex : P.entries ≠ [] → ∀ j, s.index = some j → j < P.entries.length)
    (hlast : ∀ r ∈ P.entries.getLast?, threshold ≤ r.high + P.riseHys) :
    i < P.entries.length ∧ v = (P.entry i).value ∧ (P.entry i).low - P.fallHys ≤ threshold ∧
      threshold ≤ (P.entry i).high + P.riseHys := by
  have hfall := P.fall_nonneg
  rw [getVal] at hget
  split_ifs at hget with hout
  rw [not_or, Int.not_lt] at hout
  obtain ⟨hlt, hlo, hhi⟩ := found_spec hout.1 hout.2 hlast
  generalize P.found threshold = new at *
  obtain ⟨rfl, rfl⟩ := Prod.mk.inj (some.inj hget)
  cases hs : s.index with
  | none => exact ⟨hlt, rfl, by dsimp only; omega, hhi⟩
  | some j =>
    have hj := hindex hout.1 j hs
    have hjh := P.low_le _ (mem_entry hj)
    dsimp only
    split_ifs with hrise hfall'
    · obtain ⟨rfl, hrise⟩ := hrise
      have hsucc := entry_succ hlt
      exact ⟨hj, rfl, by omega, by omega⟩
    · obtain ⟨rfl, hfall'⟩ := hfall'
      have hsucc := entry_succ hj
      exact ⟨hj, rfl, by omega, by omega⟩
    · exact ⟨hlt, rfl, by omega, hhi⟩

/-- What was sent is the voltage of the index, unless the index was lost. -/
structure Vterm.Matches (P : VtermPlot) (s : Vterm) : Prop where
  index : P.entries ≠ [] → ∀ i, s.index = some i → i < P.entries.length
  sent : ∀ i v, s.index = some i → s.sent = some v → v = (P.entry i).value

theorem follows_of_careful (hs : s.Matches P) (hc : Careful P s c) : Follows P s c ∧ (s.step P c).Matches P := by
  rw [Follows, Vterm.step, terminationVoltageUpdate]
  rcases hcharging : c.charging with _ | _ | _
  · exact ⟨nofun, hs⟩
  · exact ⟨nofun, hs⟩
  cases hget : getVal P s.index c.temp with
  | none => exact ⟨nofun, fun _ => nofun, nofun⟩
  | some r =>
    obtain ⟨i, v⟩ := r
    obtain ⟨hlast, hkept, hset⟩ := hc hcharging i v hget
    obtain ⟨hi, rfl, hlo, hhi⟩ := getVal_spec hget hs.index hlast
    dsimp only
    split_ifs with heq hok
    · refine ⟨fun _ _ => ⟨P.entry i, mem_entry hi, ?_, hlo, hhi⟩, hs⟩
      obtain ⟨v, hv⟩ := ne_none_iff_exists'.mp (hkept heq)
      rw [hv, hs.sent i v heq.symm hv]
    · refine ⟨fun _ _ => ⟨P.entry i, mem_entry hi, rfl, hlo, hhi⟩, ?_, ?_⟩
      · rintro - _ ⟨⟩
        exact hi
      · rintro _ _ ⟨⟩ ⟨⟩
        rfl
    · exact absurd (hset heq) hok

end

/-- In every run of calls that are careful, the voltage that was sent last is the one for the temperature. -/
theorem voltage_follows {P : VtermPlot} {calls : List VtermCall} (h : Guarded (Vterm.step P) (Careful P) .init calls) :
    Guarded (Vterm.step P) (Follows P) .init calls := by
  refine guarded_of_inv (I := Vterm.Matches P) (fun s c hs hc => (follows_of_careful hs hc).2)
    (fun s c hs hc => (follows_of_careful hs hc).1) ⟨fun hne i hi => ?_, nofun⟩ h
  obtain rfl := some.inj hi
  exact length_pos_iff.mpr hne

/-- Two ranges, with a hysteresis of 20. -/
def twoVoltages : VtermPlot where
  ranges := [⟨1, 100, 3000⟩, ⟨101, 150, 4000⟩]
  riseHys := 20
  fallHys := 20
  rise_nonneg := by decide
  fall_nonneg := by decide
  low_le := by decide
  contiguous := by decide

theorem voltage_follows_two :
    Guarded (Vterm.step twoVoltages) (Follows twoVoltages) .init
      [⟨some true, 130, true⟩, ⟨some true, 90, true⟩, ⟨some true, 70, true⟩] := by
  refine voltage_follows ⟨?_, ?_, ?_, trivial⟩
  all_goals
    rintro - i v h
    obtain ⟨rfl, rfl⟩ := Prod.mk.inj (some.inj h)
    decide

/-- Nothing is sent for the first range at first, a voltage that could not be sent is not sent again, and at a
temperature above the ranges that of the last one is. -/
theorem voltage_not_sent :
    (terminationVoltageUpdate twoVoltages .init ⟨some true, 50, true⟩ = (⟨some 0, none⟩, true)) ∧
    (terminationVoltageUpdate twoVoltages (Vterm.init.step twoVoltages ⟨some true, 130, false⟩) ⟨some true, 130, true⟩ =
      (⟨some 1, none⟩, true)) ∧
    ¬Follows twoVoltages .init ⟨some true, 50, true⟩ ∧ ¬Follows twoVoltages .init ⟨some true, 200, true⟩ := by
  refine ⟨rfl, rfl, fun h => ?_, fun h => ?_⟩
  · obtain ⟨r, -, hsent, -⟩ := h rfl rfl
    cases hsent
  · obtain ⟨r, hr, -, -, hle⟩ := h rfl rfl
    exact (show ∀ r ∈ twoVoltages.entries, ¬200 ≤ r.high + 20 by decide) r hr hle

end NuttxApps.Charger
