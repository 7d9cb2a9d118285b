import NuttxApps.Framework.Libc
import NuttxApps.Framework.Scan
import NuttxApps.Settings.TextStorage

/-!
# The settings map

An entry of the map is free where its type is `SETTING_EMPTY`. Every lookup walks the array up to the first entry that
has the key or is free (`lookup`). `get_setting` tests for a free entry first, the others test the key first, so a free
entry that still holds a key is absent for the one and present for the others.
-/

namespace NuttxApps.Settings

open CString Libc Scan List

/-- The sizes of the map, of a key and of a string value (`CONFIG_SYSTEM_SETTINGS_*`). -/
structure Config where
  (mapSize keySize valueSize : Nat)

inductive Ty
  | empty
  | int
  | bool
  | float
  | string
  | ipAddr
deriving DecidableEq

inductive Errno
  | einval
  | enoent
  | eacces
  | ebadmsg
deriving DecidableEq

variable {F : Type}

def Val.ty : Val F → Ty
  | .empty => .empty
  | .int _ => .int
  | .bool _ => .bool
  | .float _ => .float
  | .string _ => .string
  | .ipAddr _ => .ipAddr

def Setting.used (e : Setting F) : Bool := e.val.ty != .empty

/-- An entry after `memset(setting, 0, sizeof(setting_t))`. -/
def blank : Setting F := ⟨[], .empty⟩

variable (cfg : Config)

def blankMap : List (Setting F) := List.replicate cfg.mapSize blank

variable (key : List UInt8) (v : Val F) (map : List (Setting F))

/-- The loop over the map that stops at the first entry that has the key or is free. -/
def lookup : Option (List (Setting F) × Setting F × List (Setting F)) :=
  scan (fun e => e.key == key || !e.used) map

/-- `get_setting`: a free entry ends the search without a result, whatever its key. -/
def getSetting : Option (List (Setting F) × Setting F × List (Setting F)) :=
  match lookup key map with
  | none => none
  | some (a, e, b) => if e.used then some (a, e, b) else none

def settingsType : Except Errno Ty :=
  match getSetting key map with
  | none => .error .enoent
  | some (_, e, _) => .ok e.val.ty

def sanityCheck (s : List UInt8) : Bool := s.all fun c => c ∉ chars ['=', ';', '\n', '\r']

def setAs (tys : List Ty) (v : Val F) (e : Setting F) : Except Errno (Setting F) :=
  if e.val.ty ∈ tys then .ok { e with val := v } else .error .eacces

def setString (s : List UInt8) (e : Setting F) : Except Errno (Setting F) :=
  if e.val.ty ∉ [.string, .ipAddr] then .error .eacces
  else if cfg.valueSize ≤ s.length then .error .einval
  else if s ≠ [] ∧ sanityCheck s = false then .error .einval
  else .ok { e with val := .string s }

def setInt (i : Int32) : Setting F → Except Errno (Setting F) := setAs [.int, .bool, .float] (.int i)

def setBool (i : Int32) : Setting F → Except Errno (Setting F) :=
  setAs [.bool, .int] (.bool (if i ≠ 0 then 1 else 0))

def setFloat (f : F) : Setting F → Except Errno (Setting F) := setAs [.float, .int] (.float f)

def setIp (ip : InAddr) : Setting F → Except Errno (Setting F) := setAs [.ipAddr, .string] (.ipAddr ip)

/-- The `switch` of `settings_set`; a call with `SETTING_EMPTY` does nothing. -/
def setVal : Val F → Setting F → Except Errno (Setting F)
  | .empty, e => .ok e
  | .int i, e => setInt i e
  | .bool i, e => setBool i e
  | .float f, e => setFloat f e
  | .string s, e => setString cfg s e
  | .ipAddr ip, e => setIp ip e

def settingsSet : Except Errno Unit × List (Setting F) :=
  match getSetting key map with
  | none => (.error .enoent, map)
  | some (a, e, b) =>
    match setVal cfg v e with
    | .error r => (.error r, map)
    | .ok e' => (.ok (), a ++ e' :: b)

/-- The `switch` of `settings_create`, for a free entry that has its key already. -/
def createVal (e : Setting F) : Except Errno (Setting F) :=
  if v.ty = .empty then .error .einval else setVal cfg v { e with val := v }

/-- `settings_create`, with the assertions compiled out. -/
def settingsCreate : Except Errno Unit × List (Setting F) :=
  if key = [] then (.error .einval, map)
  else if cfg.keySize ≤ key.length then (.error .einval, map)
  else if isalpha (key.headD 0) = false ∨ sanityCheck key = false then (.error .einval, map)
  else
    match lookup key map with
    -- `setting` is still `NULL` behind the loop, and `ret` still `OK`
    | none => (.ok (), map)
    | some (a, e, b) =>
      if e.key = key then (.ok (), map)
      else
        match createVal cfg v { e with key := key } with
        | .error r => (.error r, a ++ blank :: b)
        | .ok e' => (.ok (), a ++ e' :: b)

variable {cfg : Config} {key : List UInt8} {v : Val F} {e e' : Setting F}
  {map a b : List (Setting F)}

@[simp] theorem used_blank : (blank : Setting F).used = false := rfl

theorem used_iff : e.used = true ↔ e.val.ty ≠ .empty := by simp [Setting.used]

theorem setAs_eq_ok {tys : List Ty} (h : setAs tys v e = .ok e') : e' = { e with val := v } := by
  rw [setAs] at h
  split at h
  · exact (Except.ok.inj h).symm
  · cases h

theorem setString_eq_ok {s : List UInt8} (h : setString cfg s e = .ok e') :
    e' = { e with val := .string s } ∧ s.length < cfg.valueSize ∧ sanityCheck s = true := by
  rw [setString] at h
  split at h
  · cases h
  split at h
  · cases h
  split at h
  · cases h
  · rename_i hlen hsane
    refine ⟨(Except.ok.inj h).symm, by omega, ?_⟩
    rcases eq_or_ne s [] with rfl | hs
    · rfl
    · simpa [hs] using hsane

theorem setVal_eq_ok (h : setVal cfg v e = .ok e') : e'.key = e.key ∧ (e.used → e'.used) := by
  cases v with
  | empty => cases h; exact ⟨rfl, id⟩
  | string s => rw [(setString_eq_ok h).1]; exact ⟨rfl, fun _ => rfl⟩
  | int i => rw [setAs_eq_ok h]; exact ⟨rfl, fun _ => rfl⟩
  | bool i => rw [setAs_eq_ok h]; exact ⟨rfl, fun _ => rfl⟩
  | float f => rw [setAs_eq_ok h]; exact ⟨rfl, fun _ => rfl⟩
  | ipAddr ip => rw [setAs_eq_ok h]; exact ⟨rfl, fun _ => rfl⟩

theorem createVal_eq_ok (h : createVal cfg v e = .ok e') :
    v.ty ≠ .empty ∧ setVal cfg v { e with val := v } = .ok e' := by
  rw [createVal] at h
  split at h
  · cases h
  · exact ⟨‹_›, h⟩

theorem createVal_used (h : createVal cfg v e = .ok e') : e'.key = e.key ∧ e'.used := by
  obtain ⟨hty, h⟩ := createVal_eq_ok h
  obtain ⟨hk, hu⟩ := setVal_eq_ok h
  exact ⟨hk, hu (used_iff.mpr hty)⟩

theorem lookup_eq_some : lookup key map = some (a, e, b) ↔
    map = a ++ e :: b ∧ (∀ x ∈ a, x.used ∧ x.key ≠ key) ∧ (e.key = key ∨ e.used = false) := by
  rw [lookup, scan_eq_some]
  simp [and_comm]

theorem getSetting_eq_some (h : getSetting key map = some (a, e, b)) :
    lookup key map = some (a, e, b) ∧ e.used ∧ e.key = key := by
  unfold getSetting at h
  split at h
  · cases h
  · rename_i x y z hl
    split at h
    · rename_i hu
      cases h
      refine ⟨hl, hu, ?_⟩
      simpa [hu] using (lookup_eq_some.mp hl).2.2
    · cases h

section

variable (cfg : Config) (key : List UInt8) (v : Val F) (map : List (Setting F))

theorem settingsSet_cases :
    (settingsSet cfg key v map).2 = map ∨
      ∃ a e b e', lookup key map = some (a, e, b) ∧ e.used ∧ e.key = key ∧
        setVal cfg v e = .ok e' ∧ (settingsSet cfg key v map).2 = a ++ e' :: b := by
  unfold settingsSet
  split
  · exact .inl rfl
  · rename_i a e b hg
    obtain ⟨hl, hu, hk⟩ := getSetting_eq_some hg
    split
    · exact .inl rfl
    · rename_i e' he
      exact .inr ⟨a, e, b, e', hl, hu, hk, he, rfl⟩

/-- A `settings_create` that changed the map filled a free entry, or wiped one whose value was refused. -/
theorem settingsCreate_cases :
    (settingsCreate cfg key v map).2 = map ∨
      ∃ a e b, lookup key map = some (a, e, b) ∧ e.used = false ∧
        (key ≠ [] ∧ key.length < cfg.keySize ∧ isalpha (key.headD 0) ∧ sanityCheck key) ∧
        ((settingsCreate cfg key v map).2 = a ++ blank :: b ∨
          ∃ e', createVal cfg v { e with key := key } = .ok e' ∧
            (settingsCreate cfg key v map).2 = a ++ e' :: b) := by
  unfold settingsCreate
  split
  · exact .inl rfl
  split
  · exact .inl rfl
  split
  · exact .inl rfl
  rename_i hne hlen hc
  split
  · exact .inl rfl
  rename_i a e b hl
  split
  · exact .inl rfl
  rename_i hk
  refine .inr ⟨a, e, b, hl, (lookup_eq_some.mp hl).2.2.resolve_left hk, ⟨hne, by omega, by simpa using hc⟩, ?_⟩
  split
  · exact .inl rfl
  · rename_i e' he
    exact .inr ⟨e', he, rfl⟩

end

def Packed (map : List (Setting F)) : Prop :=
  map.Pairwise fun x y => y.used → x.used ∧ x.key ≠ y.key

theorem packed_replace (h : Packed map) (hl : lookup key map = some (a, e, b))
    (hu : e.used → e'.used) (hk : e'.used → e'.key = key) : Packed (a ++ e' :: b) := by
  obtain ⟨rfl, ha, he⟩ := lookup_eq_some.mp hl
  unfold Packed at h ⊢
  rw [pairwise_append, pairwise_cons] at h ⊢
  obtain ⟨h₁, ⟨heb, h₂⟩, hab⟩ := h
  refine ⟨h₁, ⟨fun y hy hyu => ?_, h₂⟩, fun x hx y hy => ?_⟩
  · -- an entry behind is used only if the old entry was, and that had the key
    obtain ⟨heu, hne⟩ := heb y hy hyu
    have hek : e.key = key := by simpa [heu] using he
    refine ⟨hu heu, ?_⟩
    rwa [hk (hu heu), ← hek]
  · rcases mem_cons.mp hy with rfl | hy
    · intro hyu
      rw [hk hyu]
      exact ha x hx
    · exact hab x hx y (mem_cons_of_mem _ hy)

theorem packed_split (h : Packed map) : ∃ u r, map = u ++ r ∧ (∀ e ∈ u, e.used) ∧
    (∀ e ∈ r, e.used = false) ∧ u.Pairwise fun x y => x.key ≠ y.key := by
  induction map with
  | nil => exact ⟨[], [], rfl, by simp, by simp, .nil⟩
  | cons e map ih =>
    obtain ⟨he, h⟩ := pairwise_cons.mp h
    cases hu : e.used with
    | true =>
      obtain ⟨u, r, rfl, hu', hr, hk⟩ := ih h
      refine ⟨e :: u, r, rfl, by simpa [hu] using hu', hr, pairwise_cons.mpr ⟨fun y hy => ?_, hk⟩⟩
      exact (he y (by simp [hy]) (hu' y hy)).2
    | false =>
      refine ⟨[], e :: map, rfl, by simp, ?_, .nil⟩
      rw [forall_mem_cons]
      refine ⟨hu, fun y hy => ?_⟩
      by_contra hy'
      simpa [hu] using (he y hy (by simpa using hy')).1

theorem packed_blankMap (cfg : Config) : Packed (blankMap cfg : List (Setting F)) := by
  refine pairwise_replicate.mpr (.inr ?_)
  simp

theorem packed_settingsSet (h : Packed map) : Packed (settingsSet cfg key v map).2 := by
  rcases settingsSet_cases cfg key v map with hm | ⟨a, e, b, e', hl, -, hk, he, hm⟩
  · rwa [hm]
  · rw [hm]
    obtain ⟨hk', hu'⟩ := setVal_eq_ok he
    exact packed_replace h hl hu' fun _ => by rw [hk', hk]

theorem packed_settingsCreate (h : Packed map) : Packed (settingsCreate cfg key v map).2 := by
  rcases settingsCreate_cases cfg key v map with hm | ⟨a, e, b, hl, hu, -, hm | ⟨e', he, hm⟩⟩
  · rwa [hm]
  · rw [hm]
    exact packed_replace h hl (by simp [hu]) (by simp)
  · rw [hm]
    exact packed_replace h hl (by simp [hu]) fun _ => (createVal_used he).1

end NuttxApps.Settings
