import NuttxApps.Framework.Files
import NuttxApps.Framework.Transfer

/-!
# The file backend of the key-value database

A value is a file of its own, written and read in pieces. What `kvdb_file_get` returns does not depend on these
(`kvdbFileGet_eq`), but each call of `write` in `kvdb_file_set` starts at the front of the value again:
`kvdbFileSet_stored_iff` says when the file is the value.
-/

namespace NuttxApps.Kvdb

open Files Transfer
open List hiding min

/-- What the system answers: `open` may fail, and the call of `write` or `read` number `t` fails or moves some of the
bytes. -/
structure Sys where
  openError : Option Int
  error : Nat → Option Int
  sizes : Nat → Nat

def Sys.partly (sizes : Nat → Nat) : Sys := ⟨none, fun _ => none, sizes⟩

/-- `write` or `read` of at most `most` bytes: `-1` with `errno`, or the number of bytes moved. -/
def Sys.call (sys : Sys) (t most : Nat) : Except Int Nat :=
  match sys.error t with
  | some errno => .error errno
  | none => .ok (if most = 0 then 0 else amount sys.sizes t most)

def kvdbFileGenpath (pathMax : Nat) (path key : List UInt8) : List UInt8 :=
  (path ++ 47 :: key).take (pathMax - 1)

/-- The loop of `kvdb_file_set`, with fuel: the call, `nbyteswrite`, and the file. A failed call returns `-1`, which is
not `-EINTR`. -/
def setLoop (sys : Sys) (value : List UInt8) :
    Nat → Nat → Nat → FileSystem (List UInt8) → Descriptor → FileSystem (List UInt8) × Option Int
  | 0, _, _, fs, _ => (fs, none)
  | fuel + 1, t, nbyteswrite, fs, fd =>
    if nbyteswrite < value.length then
      match sys.call t value.length with
      | .error errno => (fs, some (-errno))
      | .ok result =>
        let (fs, fd) := fs.write fd (value.take result)
        setLoop sys value fuel (t + 1) (nbyteswrite + result) fs fd
    else (fs, some 0)

def kvdbFileSet (pathMax propValueMax : Nat) (sys : Sys) (fs : FileSystem (List UInt8))
    (path key value : List UInt8) : FileSystem (List UInt8) × Option Int :=
  if value.length ≥ propValueMax then (fs, some (-7))
  else
    match sys.openError with
    | some errno => (fs, some (-errno))
    | none =>
      let (fs, fd) := fs.creat (kvdbFileGenpath pathMax path key)
      setLoop sys value (value.length + 1) 0 0 fs fd

/-- The loop of `kvdb_file_get`, with fuel: `value` holds the bytes read so far. -/
def getLoop (sys : Sys) (valLen : Nat) (data : List UInt8) : Nat → Nat → List UInt8 → Option (Except Int (List UInt8))
  | 0, _, _ => none
  | fuel + 1, t, value =>
    match sys.call t (min (valLen - value.length) (data.length - value.length)) with
    | .error errno => some (.error (-errno))
    | .ok result =>
      let value := value ++ (data.drop value.length).take result
      if 0 < result ∧ value.length < valLen then getLoop sys valLen data fuel (t + 1) value
      else some (.ok value)

def kvdbFileGet (pathMax : Nat) (sys : Sys) (fs : FileSystem (List UInt8)) (path key : List UInt8) (valLen : Nat) :
    Option (Except Int (List UInt8)) :=
  match sys.openError, fs.dir (kvdbFileGenpath pathMax path key) with
  | some errno, _ => some (.error (-errno))
  | none, none => some (.error (-2))
  | none, some file => getLoop sys valLen (fs.data file) (valLen + 1) 0 []

variable (pathMax : Nat) {propValueMax : Nat} (sizes : Nat → Nat)

theorem call_partly (t most : Nat) :
    (Sys.partly sizes).call t most = .ok (if most = 0 then 0 else amount sizes t most) := rfl

theorem amount_le (t : Nat) {most : Nat} (h : most ≠ 0) : 0 < amount sizes t most ∧ amount sizes t most ≤ most := by
  have := Nat.mod_lt (sizes t) (Nat.pos_of_ne_zero h)
  rw [amount]
  omega

theorem getLoop_eq (valLen : Nat) (data : List UInt8) {fuel n : Nat} (t : Nat)
    (hn : n ≤ data.length) (hlen : n ≤ valLen) (hfuel : valLen < fuel + n) :
    getLoop (.partly sizes) valLen data fuel t (data.take n) = some (.ok (data.take valLen)) := by
  induction fuel generalizing n t with
  | zero => omega
  | succ fuel ih =>
    have htake : (data.take n).length = n := length_take_of_le hn
    rw [getLoop, call_partly, htake]
    by_cases hmost : min (valLen - n) (data.length - n) = 0
    · have hall : data.take n = data.take valLen := by
        rcases (show valLen = n ∨ data.length = n by omega) with rfl | h
        · rfl
        · rw [take_of_length_le (by omega), take_of_length_le (by omega)]
      simp [hmost, hall]
    · obtain ⟨hpos, hle⟩ := amount_le sizes t hmost
      simp only [if_neg hmost]
      generalize amount sizes t (min (valLen - n) (data.length - n)) = r at hpos hle
      rw [← take_add, length_take_of_le (by omega)]
      split_ifs with hdone
      · exact ih (t + 1) (by omega) (by omega) (by omega)
      · rw [show n + r = valLen by omega]

variable (value : List UInt8) (fuel t : Nat) {fs : FileSystem (List UInt8)}

theorem kvdbFileGet_eq {path key : List UInt8}
    {file : Nat} (hdir : fs.dir (kvdbFileGenpath pathMax path key) = some file) (valLen : Nat) :
    kvdbFileGet pathMax (.partly sizes) fs path key valLen = some (.ok ((fs.data file).take valLen)) := by
  rw [kvdbFileGet, hdir]
  exact getLoop_eq sizes valLen (fs.data file) 0 (Nat.zero_le _) (Nat.zero_le _) (by omega)

def sent (sizes : Nat → Nat) (len : Nat) : Nat → Nat
  | 0 => 0
  | t + 1 => sent sizes len t + amount sizes t len

theorem sent_mono (len : Nat) {s t : Nat} (h : s ≤ t) : sent sizes len s ≤ sent sizes len t := by
  induction h with
  | refl => exact .refl
  | step _ ih => exact Nat.le_trans ih (Nat.le_add_right _ _)

def Resumes : Prop :=
  ∀ t, sent sizes value.length t < value.length →
    value.take (amount sizes t value.length) <+: value.drop (sent sizes value.length t)

def pieces (sizes : Nat → Nat) (value : List UInt8) : Nat → Nat → List UInt8
  | 0, _ => []
  | fuel + 1, t =>
    if sent sizes value.length t < value.length then
      value.take (amount sizes t value.length) ++ pieces sizes value fuel (t + 1)
    else []

theorem setLoop_holds
    {name d : List UInt8} {fd : Descriptor} (h : Holds fs name fd d)
    (hfuel : value.length - sent sizes value.length t < fuel) :
    ∃ fs' fd', setLoop (.partly sizes) value fuel t (sent sizes value.length t) fs fd = (fs', some 0) ∧
      Holds fs' name fd' (d ++ pieces sizes value fuel t) := by
  induction fuel generalizing t fs fd d with
  | zero => omega
  | succ fuel ih =>
    rw [setLoop, pieces]
    by_cases hmore : sent sizes value.length t < value.length
    · have hne : value.length ≠ 0 := by omega
      obtain ⟨hpos, -⟩ := amount_le sizes t hne
      rw [if_pos hmore, if_pos hmore, call_partly, if_neg hne, ← append_assoc]
      exact ih (t + 1) (h.write _) (by rw [sent]; omega)
    · rw [if_neg hmore, if_neg hmore]
      exact ⟨fs, fd, rfl, by simpa using h⟩

theorem append_eq_iff {l₁ l₂ l : List UInt8} : l₁ ++ l₂ = l ↔ l₁ <+: l ∧ l₂ = l.drop l₁.length := by
  constructor
  · rintro rfl
    simp
  · rintro ⟨⟨l₃, rfl⟩, rfl⟩
    simp

theorem pieces_eq_iff
    (hfuel : value.length - sent sizes value.length t < fuel) :
    pieces sizes value fuel t = value.drop (sent sizes value.length t) ↔
      ∀ s, t ≤ s → sent sizes value.length s < value.length →
        value.take (amount sizes s value.length) <+: value.drop (sent sizes value.length s) := by
  induction fuel generalizing t with
  | zero => omega
  | succ fuel ih =>
    rw [pieces]
    split_ifs with hmore
    · have hne : value.length ≠ 0 := by omega
      obtain ⟨hpos, hle⟩ := amount_le sizes t hne
      rw [append_eq_iff, length_take_of_le hle, drop_drop, ← sent,
        ih (t + 1) (by rw [sent]; omega)]
      constructor
      · rintro ⟨hnow, hlater⟩ s hs
        rcases Nat.eq_or_lt_of_le hs with rfl | hs
        · exact fun _ => hnow
        · exact hlater s hs
      · exact fun h => ⟨h t (Nat.le_refl t) hmore, fun s hs => h s (by omega)⟩
    · rw [drop_eq_nil_of_le (by omega)]
      simp only [true_iff]
      intro s hs hlt
      have := sent_mono sizes value.length hs
      omega

theorem kvdbFileSet_holds (fs : FileSystem (List UInt8))
    (path key : List UInt8) {value : List UInt8} (hlen : value.length < propValueMax) :
    ∃ fs' fd, kvdbFileSet pathMax propValueMax (.partly sizes) fs path key value = (fs', some 0) ∧
      Holds fs' (kvdbFileGenpath pathMax path key) fd (pieces sizes value (value.length + 1) 0) := by
  have hnot : ¬ value.length ≥ propValueMax := by omega
  obtain ⟨fs', fd, hset, hholds⟩ := setLoop_holds sizes value (value.length + 1) 0
    (holds_creat fs (kvdbFileGenpath pathMax path key)) (by rw [sent]; omega)
  refine ⟨fs', fd, ?_, by simpa using hholds⟩
  rw [kvdbFileSet, if_neg hnot]
  exact hset

def Stored (fs : FileSystem (List UInt8)) (path key value : List UInt8) (valLen : Nat) : Prop :=
  (fs.dir (kvdbFileGenpath pathMax path key)).map fs.data = some value ∧
    kvdbFileGet pathMax (.partly sizes) fs path key valLen = some (.ok value)

/-- `kvdb_file_set` returns 0 after partial writes, and has stored the value just if the pieces fit. -/
theorem kvdbFileSet_stored_iff (pathMax propValueMax : Nat) (writes reads : Nat → Nat) (fs : FileSystem (List UInt8))
    (path key value : List UInt8) (valLen : Nat) (hlen : value.length < propValueMax) (hroom : value.length ≤ valLen) :
    (kvdbFileSet pathMax propValueMax (.partly writes) fs path key value).2 = some 0 ∧
      (Stored pathMax reads (kvdbFileSet pathMax propValueMax (.partly writes) fs path key value).1 path key value
        valLen ↔ Resumes writes value) := by
  obtain ⟨fs', fd, hset, hholds⟩ := kvdbFileSet_holds pathMax writes fs path key hlen
  have hpieces : pieces writes value (value.length + 1) 0 = value ↔ Resumes writes value := by
    have := pieces_eq_iff writes value (value.length + 1) 0 (by rw [sent]; omega)
    simpa [Resumes, sent] using this
  rw [hset, ← hpieces]
  refine ⟨rfl, ?_⟩
  rw [Stored, kvdbFileGet_eq pathMax reads hholds.dir, hholds.dir, Option.map_some, hholds.data, Option.some.injEq]
  refine and_iff_left_of_imp fun h => ?_
  rw [h, take_of_length_le hroom]

theorem resumes_of_complete {sizes : Nat → Nat} {value : List UInt8}
    (h : amount sizes 0 value.length = value.length) : Resumes sizes value := by
  intro t ht
  cases t with
  | zero => exact take_prefix _ _
  | succ t =>
    have hfirst : sent sizes value.length 1 = value.length := by rw [sent, sent, h, Nat.zero_add]
    have := sent_mono sizes value.length (show 1 ≤ t + 1 by omega)
    omega

theorem stored_ab : [97, 98].length < 92 ∧ Stored 64 (fun _ => 0)
    (kvdbFileSet 64 92 (.partly fun _ => 1) .empty [47, 100] [107] [97, 98]).1 [47, 100] [107] [97, 98] 92 :=
  ⟨by decide, (kvdbFileSet_stored_iff 64 92 (fun _ => 1) (fun _ => 0) .empty [47, 100] [107] [97, 98] 92 (by decide)
    (by decide)).2.mpr (resumes_of_complete rfl)⟩

/-- `ab` of which the first call writes one byte is stored as `aab`. -/
theorem not_stored_ab :
    (kvdbFileSet 64 92 (.partly id) .empty [47, 100] [107] [97, 98]).2 = some 0 ∧
      ¬ Stored 64 (fun _ => 0) (kvdbFileSet 64 92 (.partly id) .empty [47, 100] [107] [97, 98]).1
        [47, 100] [107] [97, 98] 92 := by
  refine ⟨by decide, fun h => ?_⟩
  have hfile : ((kvdbFileSet 64 92 (.partly id) .empty [47, 100] [107] [97, 98]).1.dir
      (kvdbFileGenpath 64 [47, 100] [107])).map
      (kvdbFileSet 64 92 (.partly id) .empty [47, 100] [107] [97, 98]).1.data = some [97, 97, 98] := by decide
  exact absurd (h.1.symm.trans hfile) (by decide)

end NuttxApps.Kvdb
