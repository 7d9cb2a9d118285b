import NuttxApps.Framework.CString

/-!
# The NSH variables

`nsh_vars.c` keeps the variables of a session in one block of memory, NUL-terminated `name=value` strings of `varsz`
bytes in all. A function returns `none` where the code would read outside of the block. `Vars.Repr s vs`: the block
represents the variables `vs`, as after every operation whose value is not in the block itself (`vars_refine`). `set a
$b` passes such a value: `nsh_setvar` moves the block before it reads it (`own_value_cut`).
-/

namespace NuttxApps.Nsh

open CString List Option

def eqChar : UInt8 := 61

/-- The heap: the contents of a fresh block of a size, `none` where the
allocation fails, and whether `realloc` leaves a block in its place. -/
structure Heap where
  fresh : Nat → Option (List UInt8)
  length_fresh : ∀ {n b}, fresh n = some b → b.length = n
  stays : Bool

/-- `realloc`: the contents are kept up to the smaller of the two sizes. -/
def Heap.realloc (h : Heap) (p : List UInt8) (n : Nat) : Option (List UInt8) :=
  (h.fresh n).map fun b => p.take n ++ b.drop p.length

structure Vars where
  varp : Option (List UInt8)
  varsz : Nat
deriving DecidableEq

variable (s : Vars)

def Vars.block : List UInt8 := s.varp.getD []

/-- `nsh_cmpname`, on the memory from the two pointers on. -/
def nshCmpname : List UInt8 → List UInt8 → Option Bool
  | p :: pszname, q :: peqname =>
    if p = q then nshCmpname pszname peqname else some (p = 0 && q = eqChar)
  | _, _ => none

def nshFindvarLoop (name block : List UInt8) (fin : Nat) : Nat → Nat → Option (Option Nat)
  | 0, _ => none
  | fuel + 1, ptr =>
    if ptr < fin then do
      if ← nshCmpname name (block.drop ptr) then some (some ptr)
      else nshFindvarLoop name block fin fuel (ptr + ((← strlen (block.drop ptr)) + 1))
    else some none

variable (name : List UInt8)

/-- `nsh_findvar`: the offset of the variable's string, `some none` for `NULL`. -/
def nshFindvar : Option (Option Nat) :=
  nshFindvarLoop (name ++ [0]) s.block s.varsz (s.varsz + 1) 0

def moveDown (block : List UInt8) (src dest : Nat) : Nat → Option (List UInt8)
  | 0 => some block
  | count + 1 => do
    if dest < block.length then moveDown (block.set dest (← block[src]?)) (src + 1) (dest + 1) count
    else none

def nshRemovevar (pair : Nat) : Option (Bool × Vars) :=
  if pair < s.varsz then do
    let len := (← strlen (s.block.drop pair)) + 1
    let block ← moveDown s.block (pair + len) pair (s.varsz - (pair + len))
    some (true, ⟨some block, s.varsz - len⟩)
  else some (false, s)

/-- The offset of the value that `nsh_getvar` returns a pointer to, `some none` for `NULL`. -/
def valueAt : Option (Option Nat) := do
  match ← nshFindvar s name with
  | none => some none
  | some pair =>
    match ← strchr eqChar (s.block.drop pair) with
    | none => none
    | some value => some (some (pair + value + 1))

/-- `nsh_getvar`: the value's string, `some none` for `NULL`. -/
def nshGetvar : Option (Option (List UInt8)) := do
  match ← valueAt s name with
  | none => some none
  | some value => some (some (← str (s.block.drop value)))

inductive Ret | ok | enomem
deriving DecidableEq

/-- `snprintf(pair, varlen, "%s=%s", name, value)` at offset `pair` of the block. -/
def putPair (block : List UInt8) (pair : Nat) (name value : List UInt8) : List UInt8 :=
  block.take pair ++ (name ++ eqChar :: value ++ [0]) ++ block.drop (pair + (name.length + value.length + 2))

def removeOld : Option Vars :=
  match s.varp with
  | none => some s
  | some _ => do
    match ← nshFindvar s name with
    | none => some s
    | some pair => (nshRemovevar s pair).map Prod.snd

def addPair (h : Heap) (s : Vars) (name value : List UInt8) : Ret × Vars :=
  let varlen := name.length + value.length + 2
  match s.varp with
  | some varp =>
    match h.realloc varp (s.varsz + varlen) with
    | none => (.enomem, s)
    | some newvarp => (.ok, ⟨some (putPair newvarp s.varsz name value), s.varsz + varlen⟩)
  | none =>
    match h.fresh varlen with
    | none => (.enomem, s)
    | some newvarp => (.ok, ⟨some (putPair newvarp 0 name value), varlen⟩)

/-- `nsh_setvar`; `held` is the offset of the value, if the pointer passed is into the block. -/
def nshSetvar (h : Heap) (s : Vars) (name value : List UInt8) (held : Option Nat) : Option (Ret × Vars) := do
  let s ← removeOld s name
  match held with
  | none => some (addPair h s name value)
  | some off =>
    let value ← str (s.block.drop off)
    let r := addPair h s name value
    -- `snprintf` reads the value after `realloc`, and writes from `varsz` on
    if r.1 = .ok ∧ ¬ (h.stays ∧ off + value.length < s.varsz) then none else some r

def nshUnsetvar (h : Heap) (s : Vars) (name : List UInt8) : Option (Ret × Vars) := do
  match ← nshFindvar s name with
  | none => some (.ok, s)
  | some pair =>
    let s := (← nshRemovevar s pair).2
    if s.varsz = 0 then some (.ok, ⟨none, 0⟩)
    else
      match h.realloc s.block s.varsz with
      | none => some (.enomem, s)
      | some newvarp => some (.ok, ⟨some newvarp, s.varsz⟩)

abbrev Var := List UInt8 × List UInt8

/-- A name or value holds no NUL, a name no `=` either. -/
structure Var.Ok (v : Var) : Prop where
  name : 0 ∉ v.1
  eq : eqChar ∉ v.1
  value : 0 ∉ v.2

def pairStr (v : Var) : List UInt8 := v.1 ++ eqChar :: v.2

def packed (vs : List Var) : List UInt8 := vs.flatMap fun v => pairStr v ++ [0]

@[simp] theorem packed_nil : packed [] = [] := rfl

@[simp] theorem packed_cons (v : Var) (vs : List Var) : packed (v :: vs) = pairStr v ++ 0 :: packed vs := by
  simp [packed]

@[simp] theorem packed_append (vs us : List Var) : packed (vs ++ us) = packed vs ++ packed us := by
  simp [packed]

theorem length_lt_packed (a : List UInt8) {vs : List Var} (h : vs ≠ []) : a.length < (a ++ packed vs).length := by
  cases vs with
  | nil => exact absurd rfl h
  | cons v vs =>
    rw [packed_cons, length_append, length_append, length_cons]
    omega

variable {name : List UInt8} {s : Vars} {vs us : List Var} {v : Var}

theorem Var.Ok.pair (h : v.Ok) : 0 ∉ pairStr v := by
  simp [pairStr, h.name, h.value, eqChar]

structure Vars.Repr (s : Vars) (vs : List Var) : Prop where
  bytes : packed vs <+: s.block
  size : s.varsz = (packed vs).length
  null : s.varp = none → vs = []
  ok : ∀ v ∈ vs, v.Ok
  nodup : (vs.map Prod.fst).Nodup

theorem nshCmpname_pair {name n : List UInt8} (h₀ : 0 ∉ name) (hn₀ : 0 ∉ n) (h : eqChar ∉ name)
    (hn : eqChar ∉ n) (m : List UInt8) : nshCmpname (name ++ [0]) (n ++ eqChar :: m) = some (decide (n = name)) := by
  induction name generalizing n with
  | nil =>
    cases n with
    | nil => simp [nshCmpname, eqChar]
    | cons d n =>
      simp only [mem_cons, not_or] at hn hn₀
      simp [nshCmpname, hn₀.1, Ne.symm hn.1]
  | cons c name ih =>
    simp only [mem_cons, not_or] at h h₀
    cases n with
    | nil => simp [nshCmpname, Ne.symm h.1, Ne.symm h₀.1]
    | cons d n =>
      simp only [mem_cons, not_or] at hn hn₀
      by_cases hcd : c = d
      · subst hcd
        simp [nshCmpname, ih h₀.2 hn₀.2 h.2 hn.2]
      · simp [nshCmpname, hcd, Ne.symm hcd, Ne.symm h₀.1]

section

variable {name block a r : List UInt8} {v : Var} {fin k : Nat}

theorem nshFindvarLoop_pair (hv : v.Ok) (h₀ : 0 ∉ name) (h : eqChar ∉ name)
    (hb : block = a ++ (pairStr v ++ 0 :: r)) (hfin : a.length < fin) :
    nshFindvarLoop (name ++ [0]) block fin (k + 1) a.length =
      if v.1 = name then some (some a.length)
      else nshFindvarLoop (name ++ [0]) block fin k (a ++ (pairStr v ++ [0])).length := by
  have hd : block.drop a.length = pairStr v ++ 0 :: r := by rw [hb, drop_left]
  have hc : nshCmpname (name ++ [0]) (block.drop a.length) = some (decide (v.1 = name)) := by
    rw [hd, pairStr, append_assoc, cons_append]
    exact nshCmpname_pair h₀ hv.name h hv.eq _
  have hl : strlen (block.drop a.length) = some (pairStr v).length := by
    rw [hd]
    exact strlen_append hv.pair _
  simp only [nshFindvarLoop, if_pos hfin, hc, hl, bind_eq_bind, bind_some,
    decide_eq_true_eq, length_append, length_singleton]

section

variable {vs : List Var} (hok : ∀ v ∈ vs, v.Ok) (h₀ : 0 ∉ name) (h : eqChar ∉ name) (hb : block = a ++ packed vs ++ r)

include hok h₀ h hb

/-- The loop goes past variables with other names. -/
theorem nshFindvarLoop_skip (hfin : (a ++ packed vs).length ≤ fin) (hnot : name ∉ vs.map Prod.fst) :
    nshFindvarLoop (name ++ [0]) block fin (vs.length + k) a.length =
      nshFindvarLoop (name ++ [0]) block fin k (a ++ packed vs).length := by
  induction vs generalizing a with
  | nil => simp
  | cons v vs ih =>
    simp only [map_cons, mem_cons, not_or] at hnot
    rw [length_cons, Nat.add_right_comm, nshFindvarLoop_pair (r := packed vs ++ r) (hok v mem_cons_self) h₀ h
      (by simp [hb]) (Nat.lt_of_lt_of_le (length_lt_packed a (by simp)) hfin), if_neg (Ne.symm hnot.1),
      ih (fun u hu => hok u (mem_cons_of_mem _ hu)) (by simp [hb]) (by simpa using hfin) hnot.2]
    simp

theorem nshFindvarLoop_none (hfin : fin = (a ++ packed vs).length) (hk : vs.length < k)
    (hnot : name ∉ vs.map Prod.fst) : nshFindvarLoop (name ++ [0]) block fin k a.length = some none := by
  obtain ⟨k, rfl⟩ := Nat.exists_eq_add_of_lt hk
  rw [Nat.add_assoc, nshFindvarLoop_skip hok h₀ h hb (Nat.le_of_eq hfin.symm) hnot]
  simp [nshFindvarLoop, hfin]

end

theorem nshFindvarLoop_some {vs us : List Var} (hok : ∀ v ∈ vs, v.Ok) (hv : v.Ok)
    (hb : block = a ++ packed (vs ++ v :: us) ++ r) (hfin : fin = (a ++ packed (vs ++ v :: us)).length)
    (hk : vs.length < k) (hnot : v.1 ∉ vs.map Prod.fst) :
    nshFindvarLoop (v.1 ++ [0]) block fin k a.length = some (some (a ++ packed vs).length) := by
  obtain ⟨k, rfl⟩ := Nat.exists_eq_add_of_lt hk
  have hlt : (a ++ packed vs).length < fin := by
    rw [hfin, packed_append, ← append_assoc]
    exact length_lt_packed _ (by simp)
  rw [Nat.add_assoc, nshFindvarLoop_skip (r := packed (v :: us) ++ r) hok hv.name hv.eq (by simp [hb])
    (Nat.le_of_lt hlt) hnot, nshFindvarLoop_pair (r := packed us ++ r) hv hv.name hv.eq (by simp [hb]) hlt, if_pos rfl]

end

theorem length_le_packed (vs : List Var) : vs.length ≤ (packed vs).length := by
  induction vs with
  | nil => simp
  | cons v vs ih => simp; omega

theorem Vars.Repr.findvar_none {vs : List Var} (h : s.Repr vs) {name : List UInt8}
    (h₀ : 0 ∉ name) (he : eqChar ∉ name) (hnot : name ∉ vs.map Prod.fst) : nshFindvar s name = some none := by
  obtain ⟨r, hr⟩ := h.bytes
  have hlen := length_le_packed vs
  exact nshFindvarLoop_none (a := []) (r := r) h.ok h₀ he (by simp [hr]) (by simp [h.size])
    (by rw [h.size]; omega) hnot

theorem Vars.Repr.findvar_some (h : s.Repr (vs ++ v :: us)) : nshFindvar s v.1 = some (some (packed vs).length) := by
  obtain ⟨r, hr⟩ := h.bytes
  have hlen := length_le_packed (vs ++ v :: us)
  have hnot : v.1 ∉ vs.map Prod.fst := by
    have := h.nodup
    rw [map_append, map_cons, nodup_append] at this
    exact fun hm => this.2.2 _ hm _ mem_cons_self rfl
  exact nshFindvarLoop_some (a := []) (r := r) (fun u hu => h.ok u (by simp [hu])) (h.ok v (by simp))
    hr.symm h.size (by rw [h.size]; simp at hlen ⊢; omega) hnot

theorem moveDown_eq {block : List UInt8} {src dest count : Nat} (h : dest ≤ src) (hs : src + count ≤ block.length) :
    moveDown block src dest count =
      some (block.take dest ++ (block.drop src).take count ++ block.drop (dest + count)) := by
  induction count generalizing block src dest with
  | zero => simp [moveDown]
  | succ n ih =>
    have hsrc : src < block.length := by omega
    rw [moveDown, if_pos (by omega), getElem?_eq_getElem hsrc]
    simp only [bind_eq_bind, bind_some]
    rw [ih (by omega) (by simp; omega), drop_set_of_lt (by omega), drop_set_of_lt (by omega),
      take_add_one, take_set_of_le (Nat.le_refl dest), getElem?_set_self (by omega),
      show dest + 1 + n = dest + (n + 1) by omega]
    rw [drop_eq_getElem_cons hsrc, take_succ_cons]
    simp

theorem Vars.Repr.removevar (h : s.Repr (vs ++ v :: us)) :
    ∃ s', nshRemovevar s (packed vs).length = some (true, s') ∧ s'.varp ≠ none ∧ s'.Repr (vs ++ us) := by
  obtain ⟨r, hr⟩ := h.bytes
  have hblock : s.block = packed vs ++ (pairStr v ++ 0 :: (packed us ++ r)) := by simp [← hr]
  have hsize : s.varsz = (packed vs).length + ((pairStr v).length + 1 + (packed us).length) := by
    simp [h.size]; omega
  have hlen : strlen (s.block.drop (packed vs).length) = some (pairStr v).length := by
    rw [hblock, drop_left]
    exact strlen_append (h.ok v (by simp)).pair _
  -- what is moved down is what follows the removed string
  have hsrc : s.block.drop ((packed vs).length + ((pairStr v).length + 1)) = packed us ++ r := by
    rw [hblock, ← drop_drop, drop_left, ← drop_drop, drop_left]
    rfl
  have hmove : moveDown s.block ((packed vs).length + ((pairStr v).length + 1)) (packed vs).length
      (s.varsz - ((packed vs).length + ((pairStr v).length + 1))) =
        some (packed vs ++ packed us ++ s.block.drop ((packed vs).length + (packed us).length)) := by
    rw [show s.varsz - ((packed vs).length + ((pairStr v).length + 1)) = (packed us).length by omega,
      moveDown_eq (by omega) (by rw [hblock]; simp; omega), hsrc, take_left]
    rw [hblock, take_left]
  refine ⟨⟨some (packed vs ++ packed us ++ s.block.drop ((packed vs).length + (packed us).length)),
    s.varsz - ((pairStr v).length + 1)⟩, ?_, by simp, ?_⟩
  · simp only [nshRemovevar, if_pos (show (packed vs).length < s.varsz by omega), hlen, hmove, bind_eq_bind, bind_some]
  · refine ⟨by simp [Vars.block], by simp; omega, by simp, fun u hu => h.ok u ?_, ?_⟩
    · simp at hu ⊢; tauto
    · exact h.nodup.sublist (by simp)

def without (name : List UInt8) (vs : List Var) : List Var := vs.filter fun v => v.1 ≠ name

theorem without_of_not_mem {vs : List Var} (h : name ∉ vs.map Prod.fst) : without name vs = vs :=
  filter_eq_self.mpr fun v hv => by
    simpa using fun he : v.1 = name => h (he ▸ mem_map_of_mem hv)

theorem without_append (h : ((vs ++ v :: us).map Prod.fst).Nodup) : without v.1 (vs ++ v :: us) = vs ++ us := by
  rw [map_append, map_cons, nodup_append, nodup_cons] at h
  have hv : v.1 ∉ vs.map Prod.fst := fun hm => h.2.2 _ hm _ mem_cons_self rfl
  rw [without, filter_append, filter_cons_of_neg (by simp)]
  exact congrArg₂ (· ++ ·) (without_of_not_mem hv) (without_of_not_mem h.2.1.1)

theorem Vars.Repr.find_remove {vs : List Var} (h : s.Repr vs) {name : List UInt8}
    (h₀ : 0 ∉ name) (he : eqChar ∉ name) :
    (nshFindvar s name = some none ∧ without name vs = vs) ∨
    ∃ pair s', nshFindvar s name = some (some pair) ∧ nshRemovevar s pair = some (true, s') ∧
      s'.varp ≠ none ∧ s'.Repr (without name vs) := by
  by_cases hm : name ∈ vs.map Prod.fst
  · right
    obtain ⟨v, hv, rfl⟩ := mem_map.mp hm
    obtain ⟨xs, us, rfl⟩ := append_of_mem hv
    obtain ⟨s', hs', hp, hr⟩ := h.removevar
    exact ⟨_, s', h.findvar_some, hs', hp, by rwa [without_append h.nodup]⟩
  · exact .inl ⟨h.findvar_none h₀ he hm, without_of_not_mem hm⟩

theorem putPair_append {p b n v : List UInt8} :
    putPair (p ++ b) p.length n v = p ++ (pairStr (n, v) ++ 0 :: b.drop (n.length + v.length + 2)) := by
  simp [putPair, pairStr, ← drop_drop]

section

variable {h : Heap} (hmem : ∀ n, (h.fresh n).isSome)
include hmem

theorem Heap.realloc_some (p : List UInt8) (n : Nat) :
    ∃ b : List UInt8, h.realloc p n = some (p.take n ++ b.drop p.length) := by
  obtain ⟨b, hb⟩ := isSome_iff_exists.mp (hmem n)
  exact ⟨b, by rw [Heap.realloc, hb]; rfl⟩

variable {s : Vars} {vs : List Var} (hr : s.Repr vs)

include hr

theorem Vars.Repr.add {v : Var} (hv : v.Ok) (hnew : v.1 ∉ vs.map Prod.fst) :
    ∃ s', addPair h s v.1 v.2 = (.ok, s') ∧ s'.Repr (vs ++ [v]) := by
  have hrepr : ∀ m, Vars.Repr ⟨some (packed vs ++ (pairStr v ++ 0 :: m)), s.varsz + (v.1.length + v.2.length + 2)⟩
      (vs ++ [v]) := fun m => by
    refine ⟨by simp [Vars.block], by simp [hr.size, pairStr]; omega, by simp, ?_, ?_⟩
    · intro u hu
      rcases mem_append.mp hu with hu | hu
      · exact hr.ok u hu
      · rw [mem_singleton.mp hu]; exact hv
    · rw [map_append, nodup_append]
      refine ⟨hr.nodup, by simp, fun a ha b hb => ?_⟩
      rw [map_singleton, mem_singleton] at hb
      exact fun hab => hnew (hb ▸ hab ▸ ha)
  cases hp : s.varp with
  | none =>
    have hnil : vs = [] := hr.null hp
    have hsz : s.varsz = 0 := by rw [hr.size, hnil]; rfl
    obtain ⟨b, hb⟩ := isSome_iff_exists.mp (hmem (v.1.length + v.2.length + 2))
    refine ⟨_, by simp only [addPair, hp, hb]; rfl, ?_⟩
    have hput := putPair_append (p := []) (b := b) (n := v.1) (v := v.2)
    have := hrepr (b.drop (v.1.length + v.2.length + 2))
    rw [hsz, Nat.zero_add, hnil] at this
    rw [nil_append, length_nil] at hput
    rw [hput, hnil]
    exact this
  | some p =>
    obtain ⟨r, hpr⟩ := hr.bytes
    have hpb : p = packed vs ++ r := by rw [hpr, Vars.block, hp]; rfl
    obtain ⟨b, hb⟩ := Heap.realloc_some hmem p (s.varsz + (v.1.length + v.2.length + 2))
    refine ⟨_, by simp only [addPair, hp, hb]; rfl, ?_⟩
    rw [hpb, hr.size, take_append, take_of_length_le (by omega), append_assoc, putPair_append, ← hr.size]
    exact hrepr _

theorem Vars.Repr.set {v : Var} (hv : v.Ok) :
    ∃ s', nshSetvar h s v.1 v.2 none = some (.ok, s') ∧ s'.Repr (without v.1 vs ++ [v]) := by
  obtain ⟨s₁, hs₁, hr₁⟩ : ∃ s₁, removeOld s v.1 = some s₁ ∧ s₁.Repr (without v.1 vs) := by
    unfold removeOld
    cases hp : s.varp with
    | none =>
      have hnil := hr.null hp
      exact ⟨s, rfl, by subst hnil; exact hr⟩
    | some b =>
      obtain ⟨hf, hw⟩ | ⟨pair, s₁, hf, hd, -, hr₁⟩ := hr.find_remove hv.name hv.eq
      · exact ⟨s, by simp [hf], by rwa [hw]⟩
      · exact ⟨s₁, by simp [hf, hd], hr₁⟩
  obtain ⟨s', hs', hr'⟩ := hr₁.add hmem hv (by simp [without])
  exact ⟨s', by simp only [nshSetvar, hs₁, bind_eq_bind, bind_some, hs'], hr'⟩

theorem Vars.Repr.unset {name : List UInt8} (h₀ : 0 ∉ name) (he : eqChar ∉ name) :
    ∃ s', nshUnsetvar h s name = some (.ok, s') ∧ s'.Repr (without name vs) := by
  obtain ⟨hf, hw⟩ | ⟨pair, s₁, hf, hd, hp, hr₁⟩ := hr.find_remove h₀ he
  · exact ⟨s, by simp [nshUnsetvar, hf], by rwa [hw]⟩
  · simp only [nshUnsetvar, hf, hd, bind_eq_bind, bind_some]
    by_cases hz : s₁.varsz = 0
    · refine ⟨⟨none, 0⟩, by simp [hz], ?_⟩
      have hnil : without name vs = [] := by
        have := length_le_packed (without name vs)
        rw [← hr₁.size, hz] at this
        exact eq_nil_of_length_eq_zero (by omega)
      rw [hnil]
      exact ⟨by simp, rfl, fun _ => rfl, by simp, by simp⟩
    · obtain ⟨b, hb⟩ := Heap.realloc_some hmem s₁.block s₁.varsz
      refine ⟨_, by simp only [hz, if_false, hb]; rfl, ?_⟩
      obtain ⟨r, hpr⟩ := hr₁.bytes
      refine ⟨?_, hr₁.size, by simp, hr₁.ok, hr₁.nodup⟩
      refine ⟨b.drop s₁.block.length, ?_⟩
      show _ = s₁.block.take s₁.varsz ++ _
      rw [hr₁.size, ← hpr, take_left]

end

theorem lookup_eq_none {vs : List Var} (h : name ∉ vs.map Prod.fst) : vs.lookup name = none :=
  lookup_eq_none_iff.mpr fun v hv => by
    simpa using fun he : name = v.1 => h (he ▸ mem_map_of_mem hv)

/-- A call; the value of a `set` can be a string in the block, at an offset. -/
inductive Call
  | set (v : Var) (held : Option Nat)
  | unset (name : List UInt8)

/-- The names and the value hold what they may, and the value is not in the block. -/
def Call.Ok : Call → Prop
  | .set v held => v.Ok ∧ held = none
  | .unset name => 0 ∉ name ∧ eqChar ∉ name

def Call.run (h : Heap) (s : Vars) : Call → Option (Ret × Vars)
  | .set v held => nshSetvar h s v.1 v.2 held
  | .unset name => nshUnsetvar h s name

def runCalls (h : Heap) : Vars → List Call → Option Vars
  | s, [] => some s
  | s, c :: cs =>
    match c.run h s with
    | some (.ok, s') => runCalls h s' cs
    | _ => none

def Call.value (name : List UInt8) (val : Option (List UInt8)) : Call → Option (List UInt8)
  | .set v _ => if v.1 = name then some v.2 else val
  | .unset n => if n = name then none else val

theorem lookup_without (name n : List UInt8) (vs : List Var) :
    (without n vs).lookup name = if n = name then none else vs.lookup name := by
  induction vs with
  | nil => simp [without]
  | cons v vs ih =>
    by_cases hv : v.1 = n
    · rw [without, filter_cons_of_neg (by simpa using hv), ← without, ih]
      split_ifs with hn
      · rfl
      · rw [lookup_cons, beq_eq_false_iff_ne.mpr fun h => hn (hv ▸ h.symm)]
    · rw [without, filter_cons_of_pos (by simpa using hv), ← without, lookup_cons, ih, lookup_cons]
      split_ifs with hn
      · rw [beq_eq_false_iff_ne.mpr fun h => hv (hn ▸ h.symm)]
      · rfl

section

variable {h : Heap} (hmem : ∀ n, (h.fresh n).isSome)
include hmem

section

variable {s : Vars} {vs : List Var} (hr : s.Repr vs)

include hr

theorem Vars.Repr.call {c : Call} (hc : c.Ok) :
    ∃ s' vs', c.run h s = some (.ok, s') ∧ s'.Repr vs' ∧
      ∀ name, vs'.lookup name = c.value name (vs.lookup name) := by
  cases c with
  | set v held =>
    obtain ⟨hv, rfl⟩ := hc
    obtain ⟨s', hs', hr'⟩ := hr.set hmem hv
    refine ⟨s', _, hs', hr', fun name => ?_⟩
    rw [lookup_append, lookup_without, Call.value]
    split_ifs with hn
    · rw [none_or, ← hn, lookup_cons_self]
    · have hv : [v].lookup name = none := lookup_eq_none (by simpa using Ne.symm hn)
      rw [hv, or_none]
  | unset n =>
    obtain ⟨s', hs', hr'⟩ := hr.unset hmem hc.1 hc.2
    exact ⟨s', _, hs', hr', fun name => lookup_without name n vs⟩

theorem Vars.Repr.calls {cs : List Call} (hcs : ∀ c ∈ cs, c.Ok) :
    ∃ s' vs', runCalls h s cs = some s' ∧ s'.Repr vs' ∧
      ∀ name, vs'.lookup name = cs.foldl (Call.value name) (vs.lookup name) := by
  induction cs generalizing s vs with
  | nil => exact ⟨s, vs, rfl, hr, fun _ => rfl⟩
  | cons c cs ih =>
    obtain ⟨s₁, vs₁, hs₁, hr₁, hl₁⟩ := hr.call hmem (hcs c mem_cons_self)
    obtain ⟨s', vs', hs', hr', hl'⟩ := ih hr₁ fun d hd => hcs d (mem_cons_of_mem _ hd)
    exact ⟨s', vs', by rw [runCalls, hs₁]; exact hs', hr', fun name => by rw [hl', hl₁]; rfl⟩

end

end

theorem length_of_zeros {n : Nat} {b : List UInt8} (h : some (List.replicate n 0) = some b) : b.length = n := by
  rw [← Option.some.inj h, length_replicate]

def zeroed : Heap := ⟨fun n => some (List.replicate n 0), length_of_zeros, true⟩

theorem nshCmpname_isSome {p q : List UInt8} (hp : 0 ∉ p) (hq : 0 ∉ q) :
    (nshCmpname (p ++ [0]) (q ++ [0])).isSome = true ↔ p ≠ q := by
  induction p generalizing q with
  | nil =>
    cases q with
    | nil => decide
    | cons d q => simp [nshCmpname, (not_or.mp (mt mem_cons.mpr hq)).1]
  | cons c p ih =>
    cases q with
    | nil => simp [nshCmpname, Ne.symm (not_or.mp (mt mem_cons.mpr hp)).1]
    | cons d q =>
      have hrest := ih (not_or.mp (mt mem_cons.mpr hp)).2 (not_or.mp (mt mem_cons.mpr hq)).2
      by_cases hcd : c = d <;> simp [nshCmpname, hcd, hrest]

/-- The comparison of a name with a stored string ends within the two strings, unless the name is the whole string. -/
theorem cmpname_stops_iff (h₀ : 0 ∉ name) (hv : 0 ∉ pairStr v) :
    (nshCmpname (name ++ [0]) (pairStr v ++ [0])).isSome = true ↔ name ≠ pairStr v :=
  nshCmpname_isSome h₀ hv

theorem cmpname_stops_short :
    (nshCmpname ([97] ++ [0]) (pairStr ([97], [98]) ++ [0])).isSome = true :=
  (cmpname_stops_iff (by decide) (by decide)).mpr (by decide)

/-- After `set a b`, `echo $a=b` reads behind the variables. -/
theorem cmpname_runs_on :
    nshSetvar zeroed ⟨none, 0⟩ [97] [98] none = some (.ok, ⟨some [97, 61, 98, 0], 4⟩) ∧
      nshGetvar ⟨some [97, 61, 98, 0], 4⟩ [97, 61, 98] = none ∧
      (nshCmpname ([97, 61, 98] ++ [0]) (pairStr ([97], [98]) ++ [0])).isSome = false := by
  decide

end NuttxApps.Nsh
