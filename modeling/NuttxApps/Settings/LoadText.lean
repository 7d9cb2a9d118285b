import NuttxApps.Settings.Store

/-!
# Reading the text storage

`load_text` reads the file in pieces of at most 255 bytes, each up to a newline, and takes a piece for a line
`key=value`. No file can break the shape of the map (`packed_loadLines`).
-/

namespace NuttxApps.Settings

open CString Libc Scan

structure Env (F : Type) where
  /-- `%.06f` of `fprintf` -/
  fmt06f : F → List UInt8
  /-- `%lf` of `sscanf` -/
  scanFloat : List UInt8 → Option F
  /-- the bytes of another member of the union, read as the address -/
  unionIp : Val F → InAddr
  /-- what `inet_pton` leaves at its destination where it refuses the text -/
  ptonFail : List UInt8 → InAddr → InAddr

/-- A library without `double`, whose failing `inet_pton` writes nothing. -/
def plainEnv : Env Empty := ⟨nofun, fun _ => none, fun _ => ⟨0, 0, 0, 0⟩, fun _ ip => ip⟩

variable (s : List UInt8)

def octet : Option (UInt8 × List UInt8) :=
  let ds := s.takeWhile isdigit
  if ds ≠ [] ∧ ds.length ≤ 3 ∧ digitsVal ds ≤ 255 then
    some (.ofNat (digitsVal ds), s.dropWhile isdigit)
  else none

def dot : Option (List UInt8) := if s.head? = some 46 then some s.tail else none

/-- `inet_pton(AF_INET, …)`; `none` where the text is not an address. -/
def inetPton : Option InAddr := do
  let (a, s) ← octet s
  let (b, s) ← octet (← dot s)
  let (c, s) ← octet (← dot s)
  let (d, s) ← octet (← dot s)
  if s = [] then some ⟨a, b, c, d⟩ else none

section

variable {F : Type} (env : Env F) (cfg : Config)

def Val.ip : Val F → InAddr
  | .empty => ⟨0, 0, 0, 0⟩
  | .ipAddr ip => ip
  | v => env.unionIp v

/-- The value `load_text` infers from the text behind the `=`, for an entry that holds `old`; `none` where it goes
on. -/
def parseValue (old : Val F) (t : List UInt8) : Option (Val F) :=
  if isalpha (t.headD 0) then
    if strcasecmp t (chars ['t', 'r', 'u', 'e']) then some (.bool 1)
    else if strcasecmp t (chars ['f', 'a', 'l', 's', 'e']) then some (.bool 0)
    else if cfg.valueSize ≤ t.length then none
    else some (.string t)
  else if 46 ∈ t then
    if t.count 46 = 1 then some ((env.scanFloat t).elim old .float)
    else if t.count 46 = 3 then
      some (.ipAddr ((inetPton t).getD (env.ptonFail t (old.ip env))))
    else some old
  else some ((scanInt t).elim old .int)

/-- What becomes of the entry that `getsetting` returned for the key. -/
def parseInto (key t : List UInt8) (e : Setting F) : Setting F :=
  match parseValue env cfg e.val t with
  | none => ⟨key, e.val⟩
  | some v => if v.ty = .empty then ⟨[], v⟩ else ⟨key, v⟩

def chop : List UInt8 → List UInt8
  | [] => []
  | c :: s => c :: (s.reverse.dropWhile (· ∈ chars [';', '\n', '\r'])).reverse

def loadLine (map : List (Setting F)) (line : List UInt8) : List (Setting F) :=
  match scan (· == 61) (chop (cstr line)) with
  | none => map
  | some (key, _, t) =>
    if isalpha (key.headD 0) = false then map
    else if cfg.keySize ≤ key.length then map
    else
      match lookup key map with
      | none => map
      | some (a, e, b) => a ++ parseInto env cfg key t e :: b

def loadLines (text : List UInt8) (map : List (Setting F)) : List (Setting F) :=
  (readLines 255 text).foldl (loadLine env cfg) map

end

variable {F : Type} {env : Env F} {cfg : Config} {map : List (Setting F)} {key t : List UInt8}
  {e : Setting F}

theorem parseValue_used {old v : Val F} (hold : old.ty ≠ .empty)
    (h : parseValue env cfg old t = some v) : v.ty ≠ .empty := by
  unfold parseValue at h
  split at h
  · split at h
    · cases h; simp [Val.ty]
    split at h
    · cases h; simp [Val.ty]
    split at h
    · cases h
    · cases h; simp [Val.ty]
  split at h
  · split at h
    · cases h
      cases env.scanFloat t with
      | none => exact hold
      | some d => simp [Val.ty]
    split at h
    · cases h; simp [Val.ty]
    · cases h; exact hold
  · cases h
    cases scanInt t with
    | none => exact hold
    | some d => simp [Val.ty]

theorem parseInto_used :
    (e.used → (parseInto env cfg key t e).used) ∧
      ((parseInto env cfg key t e).used → (parseInto env cfg key t e).key = key) := by
  unfold parseInto
  split
  · exact ⟨id, fun _ => rfl⟩
  · rename_i v hv
    split_ifs with hty
    · refine ⟨fun hu => absurd hty (parseValue_used (used_iff.mp hu) hv), fun hu => ?_⟩
      exact absurd hty (used_iff.mp hu)
    · exact ⟨fun _ => used_iff.mpr hty, fun _ => rfl⟩

theorem length_chop_le : (chop s).length ≤ s.length := by
  cases s with
  | nil => rfl
  | cons c s =>
    simpa [chop] using (List.dropWhile_suffix (l := s.reverse) (· ∈ chars [';', '\n', '\r'])).length_le

theorem loadLine_cases (env : Env F) (cfg : Config) (map : List (Setting F)) (line : List UInt8) :
    loadLine env cfg map line = map ∨
      ∃ key t a e b, lookup key map = some (a, e, b) ∧ key.length < line.length ∧
        loadLine env cfg map line = a ++ parseInto env cfg key t e :: b := by
  unfold loadLine
  split
  · exact .inl rfl
  rename_i key x t hs
  split
  · exact .inl rfl
  split
  · exact .inl rfl
  split
  · exact .inl rfl
  rename_i a e b hl
  refine .inr ⟨key, t, a, e, b, hl, ?_, rfl⟩
  have h₁ := congrArg List.length (scan_eq_some.mp hs).1
  have h₂ := length_chop_le (cstr line)
  have h₃ : (cstr line).length ≤ line.length := ( List.takeWhile_prefix _).length_le
  rw [List.length_append, List.length_cons] at h₁
  omega

theorem packed_loadLine (line : List UInt8) (h : Packed map) : Packed (loadLine env cfg map line) := by
  rcases loadLine_cases env cfg map line with hm | ⟨key, t, a, e, b, hl, -, hm⟩
  · rwa [hm]
  · rw [hm]
    exact packed_replace h hl parseInto_used.1 parseInto_used.2

theorem packed_loadLines (text : List UInt8) (h : Packed map) : Packed (loadLines env cfg text map) := by
  unfold loadLines
  induction readLines 255 text generalizing map with
  | nil => exact h
  | cons line lines ih => exact ih (packed_loadLine line h)

end NuttxApps.Settings
