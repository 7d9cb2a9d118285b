import NuttxApps.Framework.CString
import NuttxApps.Framework.Replay

/-!
# The text storage of the settings across power cuts

`save_text` prints the settings map to the backup file, removes the storage file and renames the backup over it.
`load_text` renames the backup where the storage file is missing. Both are logs of file operations; every byte of the
text is appended on its own, and `remove` and `rename` are atomic. `sound_iff_guarded` says which cuts lose no text.
-/

namespace NuttxApps.Settings

open CString Replay List

structure InAddr where
  (a b c d : UInt8)
deriving DecidableEq

/-- The value of a setting, with its `settings_type_e`. `F` stands for `double`. -/
inductive Val (F : Type)
  | empty
  | int (i : Int32)
  | bool (i : Int32)
  | float (f : F)
  | string (s : List UInt8)
  | ipAddr (ip : InAddr)
deriving DecidableEq

structure Setting (F : Type) where
  key : List UInt8
  val : Val F
deriving DecidableEq

def inetNtop (ip : InAddr) : List UInt8 :=
  decimal ip.a.toNat ++ chars ['.'] ++ decimal ip.b.toNat ++ chars ['.'] ++ decimal ip.c.toNat ++
    chars ['.'] ++ decimal ip.d.toNat

section

variable {F : Type} (fmt06f : F → List UInt8)

/-- What `save_text` prints after the `=`; `fmt06f` is `%.06f`. -/
def Val.text : Val F → List UInt8
  | .empty => []
  | .int i => decimal i.toInt
  | .bool i => chars (if i ≠ 0 then ['t', 'r', 'u', 'e'] else ['f', 'a', 'l', 's', 'e'])
  | .float f => fmt06f f
  | .string s => s
  | .ipAddr ip => inetNtop ip

/-- The text `save_text` prints: a line for each entry, up to the first empty one. -/
def printMap : List (Setting F) → List UInt8
  | [] => []
  | ⟨_, .empty⟩ :: _ => []
  | e :: map => e.key ++ chars ['='] ++ e.val.text fmt06f ++ chars ['\n'] ++ printMap map

end

structure Files where
  (file backup : Option (List UInt8))
deriving DecidableEq

inductive FileOp
  /-- `fopen(backup_file, "w")` -/
  | create
  /-- a byte of the backup reaches the medium -/
  | append (b : UInt8)
  /-- `fclose` -/
  | close
  /-- `remove(file)` -/
  | remove
  /-- `rename(backup_file, file)` -/
  | rename

def FileOp.apply (fs : Files) : FileOp → Files
  | .create => { fs with backup := some [] }
  | .append b => { fs with backup := fs.backup.map (· ++ [b]) }
  | .close => fs
  | .remove => { fs with file := none }
  | .rename =>
    match fs.backup with
    | none => fs
    | some t => ⟨some t, none⟩

def saveText (t : List UInt8) : List FileOp :=
  .create :: (t.map .append ++ [.close, .remove, .rename])

section

variable (fs : Files)

def loadRestore : List FileOp :=
  if fs.file.isNone && fs.backup.isSome then [.rename] else []

/-- The contents `load_text` opens; `none` is `-ENOENT`. -/
def loadText : Option (List UInt8) := (replay FileOp.apply fs (loadRestore fs)).file

theorem loadText_eq : loadText fs = fs.file.or fs.backup := by
  obtain ⟨_ | t, _ | u⟩ := fs <;> rfl

theorem loadRestore_eq :
    replay FileOp.apply fs (loadRestore fs) =
      match fs.file, fs.backup with
      | none, some t => ⟨some t, none⟩
      | _, _ => fs := by
  obtain ⟨_ | t, _ | u⟩ := fs <;> rfl

theorem loadText_restore_cut : Along FileOp.apply (fun fs' => loadText fs' = loadText fs) fs (loadRestore fs) := by
  obtain ⟨_ | t, _ | u⟩ := fs <;>
    simp [loadRestore, along_nil, along_cons, loadText_eq, FileOp.apply]

theorem replay_append_bytes (b t : List UInt8) (hb : fs.backup = some b) :
    replay FileOp.apply fs (t.map .append) = { fs with backup := some (b ++ t) } := by
  induction t generalizing fs b with
  | nil => obtain ⟨f, bk⟩ := fs; simp_all
  | cons x t ih =>
    rw [map_cons, replay_cons, ih _ (b ++ [x]) (by simp [FileOp.apply, hb])]
    simp [FileOp.apply]

theorem replay_saveText (t : List UInt8) : replay FileOp.apply fs (saveText t) = ⟨some t, none⟩ := by
  rw [saveText, replay_cons, replay_append, replay_append_bytes _ [] t rfl]
  rfl

theorem replay_saveText_cut (t : List UInt8) (n : Nat) :
    replay FileOp.apply fs ((saveText t).take n) =
      if n = 0 then fs
      else if n ≤ t.length + 2 then ⟨fs.file, some (t.take (n - 1))⟩
      else if n = t.length + 3 then ⟨none, some t⟩
      else ⟨some t, none⟩ := by
  obtain _ | n := n
  · rfl
  rw [saveText, take_succ_cons, replay_cons, take_append, replay_append, ← map_take,
    replay_append_bytes _ [] _ rfl, length_map]
  rcases Nat.lt_or_ge n t.length with h | h
  · rw [Nat.sub_eq_zero_of_le (Nat.le_of_lt h), if_neg (by omega), if_pos (by omega)]
    simp [FileOp.apply]
  · obtain ⟨k, rfl⟩ := Nat.exists_eq_add_of_le h
    rw [Nat.add_sub_cancel_left, take_of_length_le (by omega)]
    obtain _ | _ | _ | k := k
    · simp [FileOp.apply]
    · rw [if_neg (by omega), if_pos (by omega), take_of_length_le (l := t) (by omega)]
      simp [FileOp.apply]
    · simp [FileOp.apply]
    · rw [if_neg (by omega), if_neg (by omega), if_neg (by omega)]
      simp [FileOp.apply]

end

section

variable {F : Type} (fmt06f : F → List UInt8)

/-- One boot: `load_text`, completed saves, and after how many file operations the power was lost. -/
structure Boot (F : Type) where
  cutLoad : Option Nat
  saves : List (List (Setting F))
  cutSave : Option (List (Setting F) × Nat)

structure State where
  files : Files
  /-- what the storage last held as a whole -/
  last : Option (List UInt8)
  /-- the text of the save the power was lost in -/
  wip : Option (List UInt8)
deriving DecidableEq

def start (t : Option (List UInt8)) : State := ⟨⟨t, none⟩, t, none⟩

section

variable (st : State)

def State.load : State :=
  ⟨replay FileOp.apply st.files (loadRestore st.files), loadText st.files, none⟩

def State.save (map : List (Setting F)) : State :=
  ⟨replay FileOp.apply st.files (saveText (printMap fmt06f map)), some (printMap fmt06f map), none⟩

def State.run (b : Boot F) : State := b.saves.foldl (State.save fmt06f) st.load

def boot (b : Boot F) : State :=
  match b.cutLoad with
  | some n => { st with files := replay FileOp.apply st.files ((loadRestore st.files).take n) }
  | none =>
    let s := st.run fmt06f b
    match b.cutSave with
    | none => s
    | some (map, n) =>
      { s with
        files := replay FileOp.apply s.files ((saveText (printMap fmt06f map)).take n)
        wip := some (printMap fmt06f map) }

/-- The next `load_text` sees what the storage last held, or all of the save the power was lost in. -/
def Sound : Prop :=
  loadText st.files = st.last ∨ st.wip.isSome ∧ loadText st.files = st.wip

instance (st : State) : Decidable (Sound st) := inferInstanceAs (Decidable (_ ∨ _))

def Meets (b : Boot F) : Prop :=
  b.cutLoad = none → ∀ map n, b.cutSave = some (map, n) →
    (st.run fmt06f b).files.file.isSome ∨ n = 0 ∨ (printMap fmt06f map).length < n

/-- After `load_text` and every completed save the storage file is what the storage holds, and without it there is no
backup. -/
structure Settled (st : State) : Prop where
  last : st.last = st.files.file
  backup : st.files.file = none → st.files.backup = none

theorem settled_load : Settled st.load := by
  rw [State.load, loadText_eq, loadRestore_eq]
  obtain ⟨⟨_ | t, _ | u⟩, last, wip⟩ := st <;> constructor <;> simp

theorem settled_run (b : Boot F) : Settled (st.run fmt06f b) := by
  have hsave : ∀ (maps : List (List (Setting F))) (s : State), Settled s →
      Settled (maps.foldl (State.save fmt06f) s) := by
    intro maps
    induction maps with
    | nil => exact fun s h => h
    | cons map maps ih =>
      refine fun s _ => ih _ ⟨?_, fun h => ?_⟩
      · simp [State.save, replay_saveText]
      · simp [State.save, replay_saveText]
  exact hsave b.saves st.load (settled_load st)

end

section

variable {st : State}

theorem Settled.sound (h : Settled st) : Sound st := by
  refine Or.inl ?_
  rw [loadText_eq, h.last]
  cases hf : st.files.file with
  | none => rw [h.backup hf]; rfl
  | some t => rfl

theorem sound_boot {b : Boot F} (hs : Sound st) (hm : Meets fmt06f st b) : Sound (boot fmt06f st b) := by
  unfold boot
  cases hl : b.cutLoad with
  | some n =>
    -- the restore is one atomic rename, so a cut changes nothing the next load sees
    have := loadText_restore_cut st.files n
    simpa only [Sound, this] using hs
  | none =>
    have hset := settled_run fmt06f st b
    cases hc : b.cutSave with
    | none => exact hset.sound
    | some c =>
      obtain ⟨map, n⟩ := c
      specialize hm hl map n hc
      simp only [Sound, replay_saveText_cut, loadText_eq, Option.isSome_some, true_and]
      generalize printMap fmt06f map = t at hm ⊢
      rw [hset.last]
      by_cases h0 : n = 0
      · -- nothing of the save reached the medium
        left
        cases hf : (st.run fmt06f b).files.file with
        | none => simp [h0, hf, hset.backup hf]
        | some u => simp [h0, hf]
      rw [if_neg h0]
      split
      · cases hf : (st.run fmt06f b).files.file with
        | some u => left; rfl
        | none =>
          -- the backup is all there is, and it is complete
          right
          have hlen : t.length < n := by simpa [hf, h0] using hm
          rw [take_of_length_le (by omega)]
          rfl
      · right
        split <;> rfl

theorem meets_of_sound {b : Boot F} (h : Sound (boot fmt06f st b)) : Meets fmt06f st b := by
  intro hl map n hc
  by_contra hn
  simp only [not_or, Option.not_isSome_iff_eq_none] at hn
  obtain ⟨hf, h0, hlen⟩ := hn
  have hset := settled_run fmt06f st b
  simp only [boot, hl, hc, Sound, replay_saveText_cut, loadText_eq, hset.last, hf, h0, if_false,
    if_pos (show n ≤ (printMap fmt06f map).length + 2 by omega)] at h
  rcases h with h | ⟨-, h⟩
  · simp at h
  · have := congrArg (Option.map List.length) h
    simp at this
    omega

end

/-- **Crash atomicity of the text storage.** After every boot the next `load_text` sees the text the storage last held,
or the whole text of the save the power was lost in, exactly where no save is cut while it prints the backup of a
storage file that does not exist. -/
theorem sound_iff_guarded (t : Option (List UInt8)) (bs : List (Boot F)) :
    Along (boot fmt06f) Sound (start t) bs ↔ Guarded (boot fmt06f) (Meets fmt06f) (start t) bs := by
  constructor
  · exact guarded_of_along fun _ _ _ h => meets_of_sound fmt06f h
  · refine along_of_guarded (fun _ _ => sound_boot fmt06f) (Or.inl ?_)
    cases t <;> rfl

end

/-- The first save (of `a=1`) loses power after two of its four bytes: the next `load_text` sees `a=`. -/
theorem first_save_cut :
    ¬ Sound (replay (boot (F := Empty) nofun) (start none)
      [⟨none, [], some ([⟨chars ['a'], .int 1⟩], 3)⟩]) := by
  decide

end NuttxApps.Settings
