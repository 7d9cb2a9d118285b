import Mathlib.Data.Int.LeastGreatest
import NuttxApps.Charger.Protect

/-!
# The choice of the charging parameters

`check_charger_plot` takes the first entry that covers the temperature and the voltage, but returns the last entry again
if the temperature is not far enough in the range of the new one; that entry is not checked. `within_iff` says for which
tables every entry is in range: the part of an entry's own range in which another one is kept has to be in range for
that one, which is so if its corners are (`Compatible`).
-/

namespace NuttxApps.Charger

open Replay Option List

variable {n : Nat}

structure PlotCall where
  (temp vol : Int)
  type : Nat

variable (D : Desc n) (last : Option (Entry n)) (c : PlotCall)

def plotCall : Manager n × Option (PlotParameter n) :=
  checkChargerPlot D { Manager.init with protocol := c.type, lastPa := last } c.temp c.vol

def plotStep : Option (Entry n) := (plotCall D last c).1.lastPa

/-- The entry is one of the first plot for the type. -/
structure Placed (D : Desc n) (type : Nat) (e : Entry n) : Prop where
  place : ∃ plot, D.plots[e.plot]? = some plot ∧ plot.tlbs[e.seq]? = some e.pa ∧ plot.mask.testBit type
  first : ∀ j < e.plot, ∀ plot, D.plots[j]? = some plot → plot.mask.testBit type = false

/-- The parameters cover temperature and voltage up to the hysteresis. -/
@[mk_iff]
structure Near (D : Desc n) (pa : PlotParameter n) (temp vol : Int) : Prop where
  temp_ge : pa.tempRangeMin - D.tempFallHys ≤ temp
  temp_le : temp ≤ pa.tempRangeMax + D.tempRiseHys
  vol_ge : pa.volRangeMin - D.volFallHys ≤ vol
  vol_le : vol ≤ pa.volRangeMax + D.volRiseHys

instance (D : Desc n) (pa : PlotParameter n) (temp vol : Int) : Decidable (Near D pa temp vol) :=
  decidable_of_iff' _ (near_iff ..)

structure Within (D : Desc n) (c : PlotCall) (e : Entry n) : Prop extends
  Placed D c.type e, Near D e.pa c.temp c.vol

def ReturnsWithin : Prop :=
  ∀ pa, (plotCall D last c).2 = some pa → ∃ e, plotStep D last c = some e ∧ e.pa = pa ∧ Within D c e

def matched : Option (Entry n) :=
  match D.plots.zipIdx.find? fun plot => plot.1.mask.testBit c.type with
  | none => none
  | some (plot, i) =>
    match plot.tlbs.zipIdx.find? fun pa => pa.1.covers c.temp c.vol with
    | none => none
    | some (pa, j) => some ⟨i, j, pa⟩

variable {D : Desc n} {last : Option (Entry n)} {c : PlotCall} {e : Entry n}

theorem plotCall_eq (D : Desc n) (last : Option (Entry n)) (c : PlotCall) :
    plotStep D last c = (matched D c).elim last (fun e => some (hysteresis D c.temp c.vol e last)) ∧
      (plotCall D last c).2 = (matched D c).map fun e => (hysteresis D c.temp c.vol e last).pa := by
  simp only [matched, plotStep, plotCall, checkChargerPlot]
  cases hplot : D.plots.zipIdx.find? fun plot => plot.1.mask.testBit c.type with
  | none => exact ⟨rfl, rfl⟩
  | some plot => cases hpa : plot.1.tlbs.zipIdx.find? fun pa => pa.1.covers c.temp c.vol <;> simp [hpa]

theorem plotCall_of_some (h : matched D c = some e) (last : Option (Entry n)) :
    plotStep D last c = some (hysteresis D c.temp c.vol e last) ∧
      (plotCall D last c).2 = some (hysteresis D c.temp c.vol e last).pa := by
  simpa [h] using plotCall_eq D last c

theorem find?_zipIdx_iff {α : Type} {l : List α} {p : α → Bool} {x : α} {i : Nat} :
    (l.zipIdx.find? fun y => p y.1) = some (x, i) ↔
      l[i]? = some x ∧ p x = true ∧ ∀ j < i, ∀ y, l[j]? = some y → p y = false := by
  rw [find?_eq_some_iff_getElem]
  constructor
  · rintro ⟨hp, k, hk, hget, hbefore⟩
    rw [getElem_zipIdx, zero_add, Prod.mk.injEq] at hget
    obtain ⟨hx, rfl⟩ := hget
    refine ⟨List.getElem?_eq_some_iff.mpr ⟨_, hx⟩, hp, fun j hj y hy => ?_⟩
    obtain ⟨_, rfl⟩ := List.getElem?_eq_some_iff.mp hy
    have hnot := hbefore j hj
    rw [getElem_zipIdx] at hnot
    exact Bool.not_eq_true' _ |>.mp hnot
  · rintro ⟨hget, hp, hbefore⟩
    obtain ⟨hi, rfl⟩ := List.getElem?_eq_some_iff.mp hget
    refine ⟨hp, i, by rwa [length_zipIdx], by rw [getElem_zipIdx, zero_add], fun j hj => ?_⟩
    rw [getElem_zipIdx, hbefore j hj _ (getElem?_eq_getElem (by omega))]
    rfl

/-! ## The corners of what an entry covers -/

/-- The entries of the plot in front of the entry. -/
def earlier (D : Desc n) (e : Entry n) : List (PlotParameter n) := (D.plots[e.plot]?.elim [] (·.tlbs)).take e.seq

/-- The entry covers temperature and voltage, and none in front of it does. -/
def Owns (D : Desc n) (e : Entry n) (temp vol : Int) : Prop :=
  e.pa.covers temp vol = true ∧ ∀ r ∈ earlier D e, r.covers temp vol = false

/-- Temperature and voltage are within the hysteresis of an edge of `pa`, on the side of `last`. -/
def AtEdge (D : Desc n) (pa last : PlotParameter n) (temp vol : Int) : Prop :=
  if pa.tempRangeMin ≠ last.tempRangeMin ∧ pa.tempRangeMax ≠ last.tempRangeMax then
    if last.tempRangeMin < pa.tempRangeMin then temp < pa.tempRangeMin + D.tempRiseHys
    else pa.tempRangeMax - D.tempFallHys < temp
  else
    pa.volRangeMin ≠ last.volRangeMin ∧ pa.volRangeMax ≠ last.volRangeMax ∧
      if last.volRangeMin < pa.volRangeMin then vol < pa.volRangeMin + D.volRiseHys
      else pa.volRangeMax - D.volFallHys < vol

def edges (lo hi rise fall : Int) (others : List (Int × Int)) : List Int :=
  [lo, hi, lo + rise - 1, hi - fall + 1] ++ others.flatMap fun r => [r.1 - 1, r.2 + 1]

/-- The temperatures of the edges of the entry, of its hysteresis, and of what the entries in front of it leave. -/
def tempEdges (D : Desc n) (e : Entry n) : List Int :=
  edges e.pa.tempRangeMin e.pa.tempRangeMax D.tempRiseHys D.tempFallHys
    ((earlier D e).map fun r => (r.tempRangeMin, r.tempRangeMax))

def volEdges (D : Desc n) (e : Entry n) : List Int :=
  edges e.pa.volRangeMin e.pa.volRangeMax D.volRiseHys D.volFallHys
    ((earlier D e).map fun r => (r.volRangeMin, r.volRangeMax))

/-- Wherever a corner of what an entry owns is within the hysteresis on the side of another one that is in use, that one
is of the same plot and near the corner. -/
def Compatible (D : Desc n) : Prop :=
  ∀ last e type₀ type, Placed D type₀ last → (∃ temp vol, Owns D last temp vol) → Placed D type e →
    ∀ temp ∈ tempEdges D e, ∀ vol ∈ volEdges D e, Owns D e temp vol → AtEdge D e.pa last.pa temp vol →
      last.plot = e.plot ∧ Near D last.pa temp vol

instance (e : Entry n) (temp vol : Int) : Decidable (Owns D e temp vol) := inferInstanceAs (Decidable (_ ∧ _))

instance (pa last : PlotParameter n) (temp vol : Int) : Decidable (AtEdge D pa last temp vol) :=
  inferInstanceAs (Decidable (ite _ _ _))

theorem forall_mem_earlier {plot : Plot n} (hplot : D.plots[e.plot]? = some plot) {P : PlotParameter n → Prop} :
    (∀ r ∈ earlier D e, P r) ↔ ∀ j < e.seq, ∀ r, plot.tlbs[j]? = some r → P r := by
  rw [earlier, hplot, Option.elim_some]
  simp only [mem_iff_getElem?, getElem?_take]
  constructor
  · exact fun h j hj r hr => h r ⟨j, by rwa [if_pos hj]⟩
  · rintro h r ⟨j, hr⟩
    split_ifs at hr with hj
    exact h j hj r hr

theorem matched_iff : matched D c = some e ↔ Placed D c.type e ∧ Owns D e c.temp c.vol := by
  rw [matched]
  constructor
  · intro h
    split at h
    · cases h
    rename_i plot i hplot
    split at h
    · cases h
    rename_i pa j hpa
    obtain rfl := some.inj h
    obtain ⟨hget, hmask, hfirst⟩ := (find?_zipIdx_iff (p := fun plot : Plot n => plot.mask.testBit c.type)).mp hplot
    obtain ⟨hseq, hcovers, hbefore⟩ :=
      (find?_zipIdx_iff (p := fun pa : PlotParameter n => pa.covers c.temp c.vol)).mp hpa
    exact ⟨⟨⟨plot, hget, hseq, hmask⟩, hfirst⟩, hcovers, (forall_mem_earlier hget).mpr hbefore⟩
  · rintro ⟨⟨⟨plot, hget, hseq, hmask⟩, hfirst⟩, hcovers, hbefore⟩
    rw [(find?_zipIdx_iff (p := fun plot : Plot n => plot.mask.testBit c.type)).mpr ⟨hget, hmask, hfirst⟩]
    dsimp only
    rw [(find?_zipIdx_iff (p := fun pa : PlotParameter n => pa.covers c.temp c.vol)).mpr
      ⟨hseq, hcovers, (forall_mem_earlier hget).mp hbefore⟩]

theorem covers_iff {pa : PlotParameter n} {temp vol : Int} :
    pa.covers temp vol = true ↔
      (pa.tempRangeMin ≤ temp ∧ temp ≤ pa.tempRangeMax) ∧ pa.volRangeMin ≤ vol ∧ vol ≤ pa.volRangeMax := by
  simp [PlotParameter.covers, and_assoc]

/-- In a range, and in none of the others. -/
def Gap (lo hi : Int) (others : List (Int × Int)) (x : Int) : Prop :=
  (lo ≤ x ∧ x ≤ hi) ∧ ∀ r ∈ others, ¬ (r.1 ≤ x ∧ x ≤ r.2)

section

variable {lo hi x : Int} {others : List (Int × Int)}

/-- The ends of what the others leave are next to their ends. -/
theorem Gap.exists_ends (h : Gap lo hi others x) :
    (∃ x', Gap lo hi others x' ∧ x' ≤ x ∧ (x' = lo ∨ ∃ r ∈ others, x' = r.2 + 1)) ∧
      ∃ x', Gap lo hi others x' ∧ x ≤ x' ∧ (x' = hi ∨ ∃ r ∈ others, x' = r.1 - 1) := by
  constructor
  · obtain ⟨x', ⟨hgap, hle⟩, hleast⟩ := Int.exists_least_of_bdd (P := fun z => Gap lo hi others z ∧ z ≤ x)
      ⟨lo, fun z hz => hz.1.1.1⟩ ⟨x, h, le_rfl⟩
    refine ⟨x', hgap, hle, ?_⟩
    by_contra hne
    rw [not_or, not_exists] at hne
    -- the point in front of the least one would be in the gap too
    have hrange := hgap.1
    have hbelow := hleast (x' - 1) ⟨⟨⟨by omega, by omega⟩, fun r hr hin => ?_⟩, by omega⟩
    · omega
    · have hnot := hgap.2 r hr
      exact hne.2 r ⟨hr, by omega⟩
  · obtain ⟨x', ⟨hgap, hle⟩, hgreatest⟩ := Int.exists_greatest_of_bdd (P := fun z => Gap lo hi others z ∧ x ≤ z)
      ⟨hi, fun z hz => hz.1.1.2⟩ ⟨x, h, le_rfl⟩
    refine ⟨x', hgap, hle, ?_⟩
    by_contra hne
    rw [not_or, not_exists] at hne
    have habove := hgreatest (x' + 1) ⟨⟨⟨by have := hgap.1; omega, by have := hgap.1; omega⟩, fun r hr hin => ?_⟩,
      by omega⟩
    · omega
    · have hnot := hgap.2 r hr
      exact hne.2 r ⟨hr, by omega⟩

theorem exists_band (lo hi rise fall : Int) (others : List (Int × Int)) (below : Prop) [Decidable below] :
    ∃ a b, a ∈ edges lo hi rise fall others ∧ b ∈ edges lo hi rise fall others ∧
      ∀ x, ((lo ≤ x ∧ x ≤ hi) ∧ if below then x < lo + rise else hi - fall < x) ↔ a ≤ x ∧ x ≤ b := by
  by_cases hbelow : below
  · refine ⟨lo, min hi (lo + rise - 1), by simp [edges], ?_, fun x => by simp only [if_pos hbelow]; omega⟩
    rcases min_choice hi (lo + rise - 1) with h | h <;> rw [h] <;> simp [edges]
  · refine ⟨max lo (hi - fall + 1), hi, ?_, by simp [edges], fun x => by simp only [if_neg hbelow]; omega⟩
    rcases max_choice lo (hi - fall + 1) with h | h <;> rw [h] <;> simp [edges]

end

/-- A rectangle, without what others cover. -/
def Free (a b c d : Int) (rs : List (PlotParameter n)) (x y : Int) : Prop :=
  ((a ≤ x ∧ x ≤ b) ∧ c ≤ y ∧ y ≤ d) ∧ ∀ r ∈ rs, r.covers x y = false

section

variable {a b c d x y : Int} {rs : List (PlotParameter n)} {T V : List Int}

theorem free_iff_temp : Free a b c d rs x y ↔
    Gap a b ((rs.filter fun r => r.volRangeMin ≤ y ∧ y ≤ r.volRangeMax).map fun r =>
      (r.tempRangeMin, r.tempRangeMax)) x ∧ c ≤ y ∧ y ≤ d := by
  simp only [Free, Gap, ← Bool.not_eq_true, covers_iff, List.forall_mem_map, mem_filter, decide_eq_true_eq]
  refine ⟨fun h => ⟨⟨h.1.1, fun r hr hin => h.2 r hr.1 ⟨hin, hr.2⟩⟩, h.1.2⟩,
    fun h => ⟨⟨h.1.1, h.2⟩, fun r hr hin => h.1.2 r ⟨hr, hin.2⟩ hin.1⟩⟩

theorem free_iff_vol : Free a b c d rs x y ↔
    Gap c d ((rs.filter fun r => r.tempRangeMin ≤ x ∧ x ≤ r.tempRangeMax).map fun r =>
      (r.volRangeMin, r.volRangeMax)) y ∧ a ≤ x ∧ x ≤ b := by
  simp only [Free, Gap, ← Bool.not_eq_true, covers_iff, List.forall_mem_map, mem_filter, decide_eq_true_eq]
  refine ⟨fun h => ⟨⟨h.1.2, fun r hr hin => h.2 r hr.1 ⟨hr.2, hin⟩⟩, h.1.1⟩,
    fun h => ⟨⟨h.2, h.1.1⟩, fun r hr hin => h.1.2 r ⟨hr, hin.1⟩ hin.2⟩⟩

/-- What some of `rs` leave of a range ends at the range or next to one of them. -/
theorem Gap.exists_mem {p : PlotParameter n → Bool} {f : PlotParameter n → Int × Int}
    (h : Gap a b ((rs.filter p).map f) x) (ha : a ∈ T) (hb : b ∈ T) (hT : ∀ r ∈ rs, (f r).1 - 1 ∈ T ∧ (f r).2 + 1 ∈ T) :
    (∃ x' ∈ T, x' ≤ x ∧ Gap a b ((rs.filter p).map f) x') ∧ ∃ x' ∈ T, x ≤ x' ∧ Gap a b ((rs.filter p).map f) x' := by
  obtain ⟨⟨x₁, h₁, hle, hend₁⟩, x₂, h₂, hge, hend₂⟩ := h.exists_ends
  refine ⟨⟨x₁, ?_, hle, h₁⟩, x₂, ?_, hge, h₂⟩
  · rcases hend₁ with rfl | ⟨_, hmem, rfl⟩
    · exact ha
    · obtain ⟨r, hr, rfl⟩ := mem_map.mp hmem
      exact (hT r (mem_of_mem_filter hr)).2
  · rcases hend₂ with rfl | ⟨_, hmem, rfl⟩
    · exact hb
    · obtain ⟨r, hr, rfl⟩ := mem_map.mp hmem
      exact (hT r (mem_of_mem_filter hr)).1

variable (h : Free a b c d rs x y)

include h

theorem Free.temps (ha : a ∈ T) (hb : b ∈ T) (hT : ∀ r ∈ rs, r.tempRangeMin - 1 ∈ T ∧ r.tempRangeMax + 1 ∈ T) :
    (∃ x' ∈ T, x' ≤ x ∧ Free a b c d rs x' y) ∧ ∃ x' ∈ T, x ≤ x' ∧ Free a b c d rs x' y := by
  obtain ⟨hgap, hy⟩ := free_iff_temp.mp h
  obtain ⟨⟨x₁, hx₁, hle, h₁⟩, x₂, hx₂, hge, h₂⟩ := hgap.exists_mem ha hb hT
  exact ⟨⟨x₁, hx₁, hle, free_iff_temp.mpr ⟨h₁, hy⟩⟩, x₂, hx₂, hge, free_iff_temp.mpr ⟨h₂, hy⟩⟩

theorem Free.vols (hc : c ∈ V) (hd : d ∈ V) (hV : ∀ r ∈ rs, r.volRangeMin - 1 ∈ V ∧ r.volRangeMax + 1 ∈ V) :
    (∃ y' ∈ V, y' ≤ y ∧ Free a b c d rs x y') ∧ ∃ y' ∈ V, y ≤ y' ∧ Free a b c d rs x y' := by
  obtain ⟨hgap, hx⟩ := free_iff_vol.mp h
  obtain ⟨⟨y₁, hy₁, hle, h₁⟩, y₂, hy₂, hge, h₂⟩ := hgap.exists_mem hc hd hV
  exact ⟨⟨y₁, hy₁, hle, free_iff_vol.mpr ⟨h₁, hx⟩⟩, y₂, hy₂, hge, free_iff_vol.mpr ⟨h₂, hx⟩⟩

end

theorem mem_edges_of_mem {lo hi rise fall : Int} {others : List (Int × Int)} {r : Int × Int} (h : r ∈ others) :
    r.1 - 1 ∈ edges lo hi rise fall others ∧ r.2 + 1 ∈ edges lo hi rise fall others :=
  ⟨mem_append_right _ (mem_flatMap.mpr ⟨r, h, by simp⟩),
    mem_append_right _ (mem_flatMap.mpr ⟨r, h, by simp⟩)⟩

/-- Where an entry owns a point within the hysteresis of one of its edges, such points are a rectangle, with edges of
the entry or of the hysteresis, without what the entries in front cover. -/
theorem exists_free {last : PlotParameter n} {temp vol : Int} (h : AtEdge D e.pa last temp vol) :
    ∃ a b c d, (a ∈ tempEdges D e ∧ b ∈ tempEdges D e) ∧ (c ∈ volEdges D e ∧ d ∈ volEdges D e) ∧
      ∀ x y, Owns D e x y ∧ AtEdge D e.pa last x y ↔ Free a b c d (earlier D e) x y := by
  simp only [Owns, Free, covers_iff]
  by_cases htemp : e.pa.tempRangeMin ≠ last.tempRangeMin ∧ e.pa.tempRangeMax ≠ last.tempRangeMax
  · obtain ⟨a, b, ha, hb, hband⟩ := exists_band e.pa.tempRangeMin e.pa.tempRangeMax D.tempRiseHys D.tempFallHys
      ((earlier D e).map fun r => (r.tempRangeMin, r.tempRangeMax)) (last.tempRangeMin < e.pa.tempRangeMin)
    refine ⟨a, b, e.pa.volRangeMin, e.pa.volRangeMax, ⟨ha, hb⟩, by simp [volEdges, edges], fun x y => ?_⟩
    rw [← hband, AtEdge, if_pos htemp]
    tauto
  · rw [AtEdge, if_neg htemp] at h
    obtain ⟨c, d, hc, hd, hband⟩ := exists_band e.pa.volRangeMin e.pa.volRangeMax D.volRiseHys D.volFallHys
      ((earlier D e).map fun r => (r.volRangeMin, r.volRangeMax)) (last.volRangeMin < e.pa.volRangeMin)
    refine ⟨e.pa.tempRangeMin, e.pa.tempRangeMax, c, d, by simp [tempEdges, edges], ⟨hc, hd⟩, fun x y => ?_⟩
    rw [← hband, AtEdge, if_neg htemp]
    tauto

/-- What holds of the corners holds of every point. -/
theorem Compatible.near {last : Entry n} {type₀ type : Nat} {temp vol : Int} (hD : Compatible D)
    (hlast : Placed D type₀ last) (hused : ∃ temp vol, Owns D last temp vol) (he : Placed D type e)
    (hown : Owns D e temp vol) (hedge : AtEdge D e.pa last.pa temp vol) :
    last.plot = e.plot ∧ Near D last.pa temp vol := by
  obtain ⟨a, b, c, d, ⟨ha, hb⟩, ⟨hc, hd⟩, hfree⟩ := exists_free hedge
  have hcorner : ∀ x ∈ tempEdges D e, ∀ y ∈ volEdges D e, Free a b c d (earlier D e) x y →
      last.plot = e.plot ∧ Near D last.pa x y := by
    intro x hx y hy h
    obtain ⟨hown, hedge⟩ := (hfree x y).mpr h
    exact hD last e type₀ type hlast hused he x hx y hy hown hedge
  have hT : ∀ r ∈ earlier D e, r.tempRangeMin - 1 ∈ tempEdges D e ∧ r.tempRangeMax + 1 ∈ tempEdges D e :=
    fun r hr => mem_edges_of_mem (r := (r.tempRangeMin, r.tempRangeMax)) (mem_map_of_mem hr)
  have hV : ∀ r ∈ earlier D e, r.volRangeMin - 1 ∈ volEdges D e ∧ r.volRangeMax + 1 ∈ volEdges D e :=
    fun r hr => mem_edges_of_mem (r := (r.volRangeMin, r.volRangeMax)) (mem_map_of_mem hr)
  have h := (hfree temp vol).mp ⟨hown, hedge⟩
  obtain ⟨⟨y, hy, -, hrow⟩, -⟩ := h.vols hc hd hV
  obtain ⟨⟨x₁, hx₁, hle, h₁⟩, x₂, hx₂, hge, h₂⟩ := hrow.temps ha hb hT
  obtain ⟨⟨x, hx, -, hcolumn⟩, -⟩ := h.temps ha hb hT
  obtain ⟨⟨y₁, hy₁, hvle, h₃⟩, y₂, hy₂, hvge, h₄⟩ := hcolumn.vols hc hd hV
  exact ⟨(hcorner x₁ hx₁ y hy h₁).1, (hcorner x₁ hx₁ y hy h₁).2.temp_ge.trans hle,
    hge.trans (hcorner x₂ hx₂ y hy h₂).2.temp_le, (hcorner x hx y₁ hy₁ h₃).2.vol_ge.trans hvle,
    hvge.trans (hcorner x hx y₂ hy₂ h₄).2.vol_le⟩

/-! ## Sequences of calls -/

theorem hysteresis_cases (D : Desc n) (temp vol : Int) (e last : Entry n) :
    hysteresis D temp vol e (some last) = e ∨
      hysteresis D temp vol e (some last) = last ∧ AtEdge D e.pa last.pa temp vol := by
  simp only [hysteresis, AtEdge]
  split_ifs <;> simp_all

theorem hysteresis_of_atEdge {temp vol : Int} {last : Entry n} (hne : ¬ (e.plot = last.plot ∧ e.seq = last.seq))
    (h : AtEdge D e.pa last.pa temp vol) : hysteresis D temp vol e (some last) = last := by
  simp only [AtEdge] at h
  simp only [hysteresis, if_neg hne]
  split_ifs at h ⊢ <;> simp_all

theorem Placed.plot_eq {type : Nat} {e' : Entry n} (h : Placed D type e) (h' : Placed D type e') :
    e.plot = e'.plot := by
  obtain ⟨plot, hplot, -, hmask⟩ := h.place
  obtain ⟨plot', hplot', -, hmask'⟩ := h'.place
  rcases lt_trichotomy e.plot e'.plot with hlt | heq | hlt
  · exact absurd (h'.first _ hlt _ hplot) (by simp [hmask])
  · exact heq
  · exact absurd (h.first _ hlt _ hplot') (by simp [hmask'])

theorem Placed.ne_of_atEdge {type₀ type : Nat} {last : Entry n} {temp vol : Int} (hlast : Placed D type₀ last)
    (he : Placed D type e) (h : AtEdge D e.pa last.pa temp vol) : ¬ (e.plot = last.plot ∧ e.seq = last.seq) := by
  rintro ⟨hplot, hseq⟩
  obtain ⟨plot, hget, hpa, -⟩ := he.place
  obtain ⟨plot', hget', hpa', -⟩ := hlast.place
  rw [hplot, hget'] at hget
  rw [hseq, ← some.inj hget, hpa'] at hpa
  simp [AtEdge, some.inj hpa] at h

theorem within_matched (htemp : 0 ≤ D.tempRiseHys ∧ 0 ≤ D.tempFallHys) (hvol : 0 ≤ D.volRiseHys ∧ 0 ≤ D.volFallHys)
    (h : matched D c = some e) : Within D c e := by
  obtain ⟨hplaced, hcovers, -⟩ := matched_iff.mp h
  have := covers_iff.mp hcovers
  exact ⟨hplaced, by omega, by omega, by omega, by omega⟩

theorem found_plotStep (hlast : ∀ e, last = some e → ∃ c₀, matched D c₀ = some e) :
    ∀ e, plotStep D last c = some e → ∃ c₀, matched D c₀ = some e := by
  rcases hmatched : matched D c with _ | e
  · rw [(plotCall_eq D last c).1, hmatched]
    exact hlast
  · rw [(plotCall_of_some hmatched last).1]
    intro e' he'
    obtain rfl := some.inj he'
    rcases last with _ | last
    · exact ⟨c, hmatched⟩
    · rcases hysteresis_cases D c.temp c.vol e last with h | ⟨h, -⟩
      · rw [h]
        exact ⟨c, hmatched⟩
      · rw [h]
        exact hlast last rfl

/-- Over any sequence of calls an entry is returned only within its ranges and the hysteresis, from the first plot for
the type, exactly if the tables are compatible. -/
theorem within_iff (D : Desc n) (htemp : 0 ≤ D.tempRiseHys ∧ 0 ≤ D.tempFallHys)
    (hvol : 0 ≤ D.volRiseHys ∧ 0 ≤ D.volFallHys) :
    (∀ calls, Guarded (plotStep D) (ReturnsWithin D) none calls) ↔ Compatible D := by
  constructor
  · rintro h last e type₀ type hlast ⟨temp₀, vol₀, hown₀⟩ he temp - vol - hown hedge
    -- one call takes `last`, and the next one keeps it
    have hmatched₀ : matched D ⟨temp₀, vol₀, type₀⟩ = some last := matched_iff.mpr ⟨hlast, hown₀⟩
    have hmatched : matched D ⟨temp, vol, type⟩ = some e := matched_iff.mpr ⟨he, hown⟩
    have hfirst : plotStep D none ⟨temp₀, vol₀, type₀⟩ = some last := (plotCall_of_some hmatched₀ none).1
    have hreturns : ReturnsWithin D (some last) ⟨temp, vol, type⟩ :=
      hfirst ▸ (h [⟨temp₀, vol₀, type₀⟩, ⟨temp, vol, type⟩]).2.1
    obtain ⟨hstep, hpa⟩ := plotCall_of_some hmatched (some last)
    obtain ⟨e', he', -, hwithin⟩ := hreturns _ hpa
    have hkept := hysteresis_of_atEdge (hlast.ne_of_atEdge he hedge) hedge
    obtain rfl : e' = last := some.inj (he'.symm.trans (hstep.trans (congrArg some hkept)))
    exact ⟨hwithin.toPlaced.plot_eq he, hwithin.toNear⟩
  · intro h calls
    refine guarded_of_inv (C := fun _ _ => True) (I := fun last => ∀ e, last = some e → ∃ c₀, matched D c₀ = some e)
      (fun last c hlast _ => found_plotStep hlast) (fun last c hlast _ => ?_) nofun (guarded_true none calls)
    intro pa hpa
    rcases he : matched D c with _ | e
    · rw [(plotCall_eq D last c).2, he] at hpa
      cases hpa
    · obtain ⟨hstep, hreturned⟩ := plotCall_of_some he last
      rw [hreturned] at hpa
      refine ⟨_, hstep, some.inj hpa, ?_⟩
      rcases last with _ | last
      · exact within_matched htemp hvol he
      rcases hysteresis_cases D c.temp c.vol e last with hkept | ⟨hkept, hedge⟩
      · rw [hkept]
        exact within_matched htemp hvol he
      · obtain ⟨c₀, hc₀⟩ := hlast last rfl
        obtain ⟨hplaced₀, hown₀⟩ := matched_iff.mp hc₀
        obtain ⟨hplaced, hown⟩ := matched_iff.mp he
        obtain ⟨hplot, hnear⟩ := h.near hplaced₀ ⟨_, _, hown₀⟩ hplaced hown hedge
        obtain ⟨plot, hget, -, hmask⟩ := hplaced.place
        obtain ⟨plot', hget', hpa', -⟩ := hplaced₀.place
        rw [hkept]
        rw [← hplot, hget'] at hget
        obtain rfl := some.inj hget
        exact ⟨⟨⟨plot', hget', hpa', hmask⟩, hplot ▸ hplaced.first⟩, hnear⟩

theorem placed_twoRanges {type : Nat} {e : Entry 1} (h : Placed twoRanges type e) :
    e = ⟨0, 0, ⟨0, 150, 3000, 4400, some 0, 300, 0⟩⟩ ∨ e = ⟨0, 1, ⟨150, 300, 3000, 4400, some 0, 500, 0⟩⟩ := by
  obtain ⟨⟨plot, hplot, hpa, -⟩, -⟩ := h
  obtain ⟨i, j, pa⟩ := e
  rcases i with _ | i
  · obtain rfl := some.inj hplot
    rcases j with _ | _ | j
    · exact .inl (by rw [some.inj hpa])
    · exact .inr (by rw [some.inj hpa])
    · cases hpa
  · cases hplot

theorem within_twoRanges :
    ((0 ≤ twoRanges.tempRiseHys ∧ 0 ≤ twoRanges.tempFallHys) ∧ 0 ≤ twoRanges.volRiseHys ∧ 0 ≤ twoRanges.volFallHys) ∧
      ∀ calls, Guarded (plotStep twoRanges) (ReturnsWithin twoRanges) none calls := by
  refine ⟨by decide, (within_iff twoRanges (by decide) (by decide)).mpr ?_⟩
  intro last e type₀ type hlast _ he
  rcases placed_twoRanges hlast with rfl | rfl <;> rcases placed_twoRanges he with rfl | rfl
  all_goals decide

/-- The first entry is kept at too high a voltage, for another type, and behind a range that was skipped. -/
theorem kept_out_of_range :
    ¬ Guarded (plotStep threeRanges) (ReturnsWithin threeRanges) none [⟨100, 3500, 0⟩, ⟨155, 4200, 0⟩] ∧
      ¬ Guarded (plotStep threeRanges) (ReturnsWithin threeRanges) none [⟨100, 3500, 0⟩, ⟨155, 3500, 1⟩] ∧
      ¬ Guarded (plotStep threeRanges) (ReturnsWithin threeRanges) none [⟨100, 3500, 0⟩, ⟨305, 3500, 0⟩] := by
  -- what is returned is the first entry in each of the three
  have hkept : ∀ c : PlotCall, plotStep threeRanges (plotStep threeRanges none ⟨100, 3500, 0⟩) c =
        some ⟨0, 0, ⟨0, 150, 3000, 4000, some 0, 300, 0⟩⟩ →
      (plotCall threeRanges (plotStep threeRanges none ⟨100, 3500, 0⟩) c).2 =
        some ⟨0, 150, 3000, 4000, some 0, 300, 0⟩ →
      Guarded (plotStep threeRanges) (ReturnsWithin threeRanges) none [⟨100, 3500, 0⟩, c] →
      Within threeRanges c ⟨0, 0, ⟨0, 150, 3000, 4000, some 0, 300, 0⟩⟩ := by
    intro c hstep hpa h
    obtain ⟨e, he, -, hwithin⟩ := h.2.1 _ hpa
    rw [hstep] at he
    exact some.inj he ▸ hwithin
  refine ⟨fun h => ?_, fun h => ?_, fun h => ?_⟩
  · exact absurd (hkept _ rfl rfl h).vol_le (by decide)
  · obtain ⟨plot, hplot, -, hmask⟩ := (hkept _ rfl rfl h).place
    obtain rfl := some.inj hplot
    exact absurd hmask (by decide)
  · exact absurd (hkept _ rfl rfl h).temp_le (by decide)

end NuttxApps.Charger
