import NuttxApps.Settings.Binary
import NuttxApps.Settings.LoadText

/-!
# Every history of the settings map

`Reach` are the maps reached by any calls and loads; `packed_of_reach` is their invariant. `settings_create` reports
success in two cases in which the setting is not there afterwards (`created_iff`): where the map is full, and where
`load_text` left the key in a free entry.
-/

namespace NuttxApps.Settings

open CString

variable {F : Type}

inductive Reach (L : Layout F) (env : Env F) (cfg : Config) : List (Setting F) → Prop
  | init : Reach L env cfg (blankMap cfg)
  | create {map : List (Setting F)} (key : List UInt8) (v : Val F) (h : Reach L env cfg map) :
      Reach L env cfg (settingsCreate cfg key v map).2
  | set {map : List (Setting F)} (key : List UInt8) (v : Val F) (h : Reach L env cfg map) :
      Reach L env cfg (settingsSet cfg key v map).2
  | clear {map : List (Setting F)} (h : Reach L env cfg map) : Reach L env cfg (blankMap cfg)
  | loadText {map : List (Setting F)} (text : List UInt8) (h : Reach L env cfg map) :
      Reach L env cfg (loadLines env cfg text map)
  /-- `mem` is the map in memory, `mem'` the one that was saved -/
  | loadBin {mem mem' : List (List UInt8)} {fuel : Nat} {file junk : List UInt8}
      (h : Reach L env cfg (mem.map L.view)) (h' : Reach L env cfg (mem'.map L.view))
      (hsize : ∀ b ∈ mem', b.length = L.size) (hjunk : junk.length = L.size)
      (hfile : saveBin L fuel mem' = some file) :
      Reach L env cfg ((Settings.loadBin L junk file mem).2.map L.view)

variable {L : Layout F} {env : Env F} {cfg : Config} {map : List (Setting F)} {key : List UInt8} {v : Val F}

theorem packed_loadBin {mem mem' : List (List UInt8)} {fuel : Nat} {file junk : List UInt8}
    (h : Packed (mem.map L.view)) (hsize : ∀ b ∈ mem', b.length = L.size) (hjunk : junk.length = L.size)
    (hfile : saveBin L fuel mem' = some file) : Packed ((loadBin L junk file mem).2.map L.view) := by
  rcases loadBin_saved mem hsize hjunk hfile with ⟨he, -⟩ | he
  · rwa [he]
  · rw [he]
    exact packed_putEntries (fun b hb => used_of_mem_usedEntries (List.mem_of_mem_take hb)) h

/-- **The invariant of the map.** After every history the used entries come first, and
their keys are different. -/
theorem packed_of_reach (h : Reach L env cfg map) : Packed map := by
  induction h with
  | init => exact packed_blankMap cfg
  | create key v _ ih => exact packed_settingsCreate ih
  | set key v _ ih => exact packed_settingsSet ih
  | clear _ _ => exact packed_blankMap cfg
  | loadText text _ ih => exact packed_loadLines text ih
  | loadBin _ _ hsize hjunk hfile ih _ => exact packed_loadBin ih hsize hjunk hfile

theorem packed_after_load :
    let map := loadLines plainEnv ⟨2, 8, 4⟩ (chars ['a', '=', '1', '\n']) (blankMap ⟨2, 8, 4⟩)
    Reach intLayout plainEnv ⟨2, 8, 4⟩ (settingsCreate ⟨2, 8, 4⟩ (chars ['b']) (.bool 1) map).2 ∧
      Packed (settingsCreate ⟨2, 8, 4⟩ (chars ['b']) (.bool 1) map).2 := by
  have h : Reach intLayout plainEnv ⟨2, 8, 4⟩ (settingsCreate ⟨2, 8, 4⟩ (chars ['b']) (.bool 1)
      (loadLines plainEnv ⟨2, 8, 4⟩ (chars ['a', '=', '1', '\n']) (blankMap ⟨2, 8, 4⟩))).2 :=
    .create _ _ (.loadText _ .init)
  exact ⟨h, packed_of_reach h⟩

/-- The map is not full of other settings, and the lookup does not stop at a free entry that still holds the key. -/
def Creatable (key : List UInt8) (map : List (Setting F)) : Prop :=
  ∃ a e b, lookup key map = some (a, e, b) ∧ (e.used ∨ e.key ≠ key)

theorem settingsType_iff :
    (∃ ty, settingsType key map = .ok ty) ↔ ∃ a e b, lookup key map = some (a, e, b) ∧ e.used := by
  rw [settingsType, getSetting]
  cases hl : lookup key map with
  | none => simp
  | some x =>
    obtain ⟨a, e, b⟩ := x
    cases hu : e.used <;> simp [hu]

/-- **Creation.** After a successful `settings_create`, `settings_type` finds the setting exactly where the map had a
place for it. -/
theorem created_iff (hok : (settingsCreate cfg key v map).1 = .ok ()) :
    (∃ ty, settingsType key (settingsCreate cfg key v map).2 = .ok ty) ↔ Creatable key map := by
  rw [settingsType_iff, Creatable]
  unfold settingsCreate at hok ⊢
  split at hok
  · cases hok
  split at hok
  · cases hok
  split at hok
  · cases hok
  rename_i h₁ h₂ h₃
  rw [if_neg h₁, if_neg h₂, if_neg h₃]
  cases hl : lookup key map with
  | none => simp [hl]
  | some x =>
    obtain ⟨a, e, b⟩ := x
    simp only [hl] at hok ⊢
    by_cases hk : e.key = key
    · -- the entry has the key: nothing changes
      simp [hk, hl]
    · rw [if_neg hk] at hok ⊢
      cases hc : createVal cfg v { e with key := key } with
      | error r => simp [hc] at hok
      | ok e' =>
        -- the entry was free, and now it is used and has the key
        obtain ⟨hk', hu'⟩ := createVal_used hc
        obtain ⟨-, ha, -⟩ := lookup_eq_some.mp hl
        have hl' : lookup key (a ++ e' :: b) = some (a, e', b) := lookup_eq_some.mpr ⟨rfl, ha, .inl hk'⟩
        simp [hl', hu', hk]

theorem created_in_blankMap :
    (settingsCreate ⟨1, 8, 4⟩ (chars ['a']) (.int 7) (blankMap ⟨1, 8, 4⟩ : List (Setting Empty))).1 = .ok () ∧
      ∃ ty, settingsType (chars ['a'])
        (settingsCreate ⟨1, 8, 4⟩ (chars ['a']) (.int 7) (blankMap ⟨1, 8, 4⟩ : List (Setting Empty))).2 = .ok ty :=
  ⟨rfl, (created_iff rfl).mpr ⟨[], blank, [], rfl, .inr (by decide)⟩⟩

def staleMap : List (Setting Empty) :=
  loadLines plainEnv ⟨1, 8, 4⟩ (chars ['a', '=', 'b', 'c', 'd', 'e', 'f', '\n']) (blankMap ⟨1, 8, 4⟩)

def fullMap : List (Setting Empty) :=
  (settingsCreate ⟨1, 8, 4⟩ (chars ['b']) (.int 7) (blankMap ⟨1, 8, 4⟩)).2

/-- Creating `a` succeeds in both maps, and `a` is in neither of them. -/
theorem created_missing :
    (Reach intLayout plainEnv ⟨1, 8, 4⟩ staleMap ∧
      (settingsCreate ⟨1, 8, 4⟩ (chars ['a']) (.int 7) staleMap).1 = .ok () ∧
      settingsType (chars ['a']) (settingsCreate ⟨1, 8, 4⟩ (chars ['a']) (.int 7) staleMap).2 = .error .enoent) ∧
    Reach intLayout plainEnv ⟨1, 8, 4⟩ fullMap ∧
      (settingsCreate ⟨1, 8, 4⟩ (chars ['a']) (.int 7) fullMap).1 = .ok () ∧
      settingsType (chars ['a']) (settingsCreate ⟨1, 8, 4⟩ (chars ['a']) (.int 7) fullMap).2 = .error .enoent := by
  refine ⟨⟨.loadText _ .init, ?_, ?_⟩, .create _ _ .init, ?_, ?_⟩ <;> rfl

end NuttxApps.Settings
