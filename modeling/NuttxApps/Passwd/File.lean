import Mathlib.Data.List.DropRight
import NuttxApps.Framework.Libc
import NuttxApps.Framework.Transfer
import NuttxApps.Passwd.Encrypt

/-!
# The password file

`passwd_find` and `passwd_delete`. The calls that transfer bytes may move any part of what they are asked for; `sizes`
says how much. In terms of the lines of a file (`Contents`), `passwd_find` returns the offset of the line `victim`,
which is the user's only if the line in front of it is well-formed (`delete_find_iff`).
-/

namespace NuttxApps.Passwd

open CString Libc Transfer
open List hiding min lt_irrefl le_refl

structure Errno where
  code : Nat
  pos : 0 < code
deriving DecidableEq

def enoent : Errno := ⟨2, by decide⟩
def e2big : Errno := ⟨7, by decide⟩
def einval : Errno := ⟨22, by decide⟩

variable (line : List UInt8)

def nameOf : Option (List UInt8) :=
  let s := cstr line
  if 58 ∈ s then some (s.takeWhile (· ≠ 58)) else none

def behindName : List UInt8 := ((cstr line).dropWhile (· ≠ 58)).tail

def field (s : List UInt8) : Except Errno (List UInt8) :=
  if 58 ∈ s then
    let encrypted := s.takeWhile (· ≠ 58)
    if maxEncrypted ≤ encrypted.length then .error e2big else .ok encrypted
  else .error einval

def fieldOf : Except Errno (List UInt8) := field (behindName line)

def findLoop (user : List UInt8) : List (List UInt8) → Nat → Nat → Except Errno (Nat × List UInt8)
  | [], _, _ => .error enoent
  | line :: ls, offset, pos => match nameOf line with
    -- `continue`, and the offset stays
    | none => findLoop user ls offset (pos + line.length)
    | some name =>
      if name = user then (fieldOf line).map fun e => (offset, e)
      else findLoop user ls (pos + line.length) (pos + line.length)

section

variable (cfg : Config) (sizes : Nat → Nat)

/-- `passwd_find`: the offset and the encrypted password of the record. -/
def find (file user : List UInt8) : Except Errno (Nat × List UInt8) :=
  findLoop user (readLines (cfg.iobufferSize - 1) file) 0 0

/-- `passwd_copyfile`, with fuel for its passes: the streams and the number of transfers. `none` is `SIZE_MAX`. -/
def copyfile : Nat → Option Nat → List UInt8 → List UInt8 → Nat → List UInt8 × List UInt8 × Nat
  | 0, _, instream, outstream, t => (instream, outstream, t)
  | fuel + 1, remaining, instream, outstream, t =>
    if remaining = some 0 then (instream, outstream, t)
    else
      let gulpsize := remaining.elim cfg.iobufferSize (min · cfg.iobufferSize)
      let (instream, iobuffer, t) := move sizes gulpsize gulpsize instream [] t
      -- end of file, with nothing buffered
      if iobuffer = [] then (instream, outstream, t)
      else
        let (_, outstream, t) := move sizes iobuffer.length iobuffer.length iobuffer outstream t
        -- end of file in this pass
        if iobuffer.length < gulpsize then (instream, outstream, t)
        else copyfile fuel (remaining.map (· - iobuffer.length)) instream outstream t

/-- `passwd_delete`, where all calls succeed: what it returns, and the file it leaves. -/
def delete (file : List UInt8) (offset : Nat) : Int × List UInt8 :=
  let (instream, outstream, t) := copyfile cfg sizes (file.length + 1) (some offset) file [] 0
  -- the loop of `fgetc` up to the newline
  let instream := (instream.dropWhile (· ≠ 10)).tail
  let (_, outstream, _) := copyfile cfg sizes (instream.length + 1) none instream outstream t
  (0, outstream)

section

variable {remaining : Option Nat} {g : Nat} (h : ∀ n ∈ remaining, g ≤ n)

include h

theorem elim_of_length_le {l : List UInt8}
    (hl : l.length ≤ g) : remaining.elim [] l.drop = [] ∧ remaining.elim l l.take = l := by
  cases remaining with
  | none => exact ⟨rfl, rfl⟩
  | some n =>
    have hn := h n rfl
    exact ⟨drop_of_length_le (by omega), take_of_length_le (by omega)⟩

theorem elim_map_sub (l : List UInt8) :
    (remaining.map (· - g)).elim [] (l.drop g).drop = remaining.elim [] l.drop ∧
      l.take g ++ (remaining.map (· - g)).elim (l.drop g) (l.drop g).take = remaining.elim l l.take := by
  cases remaining with
  | none => simp
  | some n =>
    have hn := h n rfl
    simp only [Option.map_some, Option.elim_some]
    rw [drop_drop, ← take_add, Nat.add_sub_cancel' hn]
    exact ⟨rfl, rfl⟩

end

theorem copyfile_eq {fuel : Nat} (remaining : Option Nat) {instream : List UInt8} (h : instream.length < fuel)
    (outstream : List UInt8) (t : Nat) :
    ∃ t', copyfile cfg sizes fuel remaining instream outstream t =
      (remaining.elim [] instream.drop, outstream ++ remaining.elim instream instream.take, t') := by
  induction fuel generalizing remaining instream outstream t with
  | zero => omega
  | succ fuel ih =>
    rw [copyfile]
    split_ifs with hdone
    · exact ⟨t, by simp [hdone]⟩
    · have hcfg := cfg.two_le
      have hgulp : 0 < remaining.elim cfg.iobufferSize (min · cfg.iobufferSize) ∧
          ∀ n ∈ remaining, remaining.elim cfg.iobufferSize (min · cfg.iobufferSize) ≤ n := by
        cases remaining with
        | none => exact ⟨by simp only [Option.elim_none]; omega, by simp⟩
        | some n =>
          have hn : n ≠ 0 := by simpa using hdone
          simp only [Option.elim_some, Option.mem_some_iff, forall_eq']
          omega
      generalize remaining.elim cfg.iobufferSize (min · cfg.iobufferSize) = g at hgulp
      obtain ⟨t₁, h₁⟩ := move_eq sizes (le_refl g) instream [] t
      obtain ⟨t₂, h₂⟩ := move_eq sizes (le_refl (instream.take g).length) (instream.take g) outstream t₁
      simp only [h₁, nil_append, h₂, take_length]
      rcases lt_or_ge instream.length g with hlength | hlength
      · -- the end of the stream, with or without something buffered
        have hrest := elim_of_length_le hgulp.2 hlength.le
        rw [hrest.1, hrest.2, take_of_length_le hlength.le, drop_of_length_le hlength.le, if_pos hlength]
        split
        · rename_i hnil
          exact ⟨t₁, by rw [hnil, append_nil]⟩
        · exact ⟨t₂, rfl⟩
      · have htake : (instream.take g).length = g := by rw [length_take]; omega
        have hne : instream.take g ≠ [] := ne_nil_of_length_pos (by omega)
        rw [if_neg hne, htake, if_neg (lt_irrefl g)]
        obtain ⟨t', ht'⟩ := ih (remaining.map (· - g)) (show (instream.drop g).length < fuel by
          rw [length_drop]; omega) (outstream ++ instream.take g) t₂
        have hrest := elim_map_sub hgulp.2 instream
        exact ⟨t', ht'.trans (by rw [hrest.1, append_assoc, hrest.2])⟩

theorem delete_eq (file : List UInt8) (offset : Nat) :
    delete cfg sizes file offset = (0, file.take offset ++ ((file.drop offset).dropWhile (· ≠ 10)).tail) := by
  obtain ⟨t, ht⟩ := copyfile_eq cfg sizes (some offset) (Nat.lt_succ_self file.length) [] 0
  simp only [delete, ht, Option.elim_some, nil_append]
  obtain ⟨t', ht'⟩ := copyfile_eq cfg sizes none (Nat.lt_succ_self ((file.drop offset).dropWhile (· ≠ 10)).tail.length)
    (file.take offset) t
  rw [ht']
  rfl

end

theorem cstr_append (s w : List UInt8) : cstr (s ++ w) = if 0 ∈ s then cstr s else s ++ cstr w := by
  induction s with
  | nil => simp [cstr]
  | cons c s ih =>
    by_cases hc : c = 0
    · simp [cstr, hc]
    · simp only [cstr, cons_append, takeWhile_cons, ne_eq, hc, not_false_eq_true, decide_true, if_true,
        mem_cons, Ne.symm hc, false_or] at ih ⊢
      rw [ih]
      split <;> rfl

theorem cstr_cons {c : UInt8} (hc : c ≠ 0) (s : List UInt8) : cstr (c :: s) = c :: cstr s :=
  takeWhile_cons_of_pos (by simpa using hc)

theorem eq_takeWhile_append {α : Type} [DecidableEq α] {a : α} {l : List α} (h : a ∈ l) :
    l = l.takeWhile (· ≠ a) ++ a :: (l.dropWhile (· ≠ a)).tail := by
  induction l with
  | nil => simp at h
  | cons x l ih =>
    by_cases hx : x = a
    · simp [hx]
    · simpa [hx] using ih (by simpa [Ne.symm hx] using h)

variable {s : List UInt8}

theorem forall_ne {x : UInt8} (h : x ∉ s) : ∀ c ∈ s, decide (c ≠ x) = true :=
  fun _ hc => decide_eq_true fun hx => h (hx ▸ hc)

theorem takeWhile_append_of_mem {c : UInt8} (h : c ∈ s) (w : List UInt8) :
    (s ++ w).takeWhile (· ≠ c) = s.takeWhile (· ≠ c) ∧ (s ++ w).dropWhile (· ≠ c) = s.dropWhile (· ≠ c) ++ w := by
  induction s with
  | nil => simp at h
  | cons x s ih =>
    by_cases hx : x = c
    · simp [hx]
    · have := ih (by simpa [Ne.symm hx] using h)
      simpa [hx] using this

theorem nameOf_eq_some_iff {line name : List UInt8} :
    nameOf line = some name ↔ 58 ∈ cstr line ∧ (cstr line).takeWhile (· ≠ 58) = name := by
  rw [nameOf]
  split <;> simp_all

theorem nameOf_eq_none_iff {line : List UInt8} : nameOf line = none ↔ 58 ∉ cstr line := by
  rw [nameOf]
  split <;> simp_all

theorem nameOf_append_of_some {s name : List UInt8} (h : nameOf s = some name) (w : List UInt8) :
    nameOf (s ++ w) = some name := by
  rw [nameOf_eq_some_iff] at h ⊢
  rw [cstr_append]
  split_ifs with h0
  · exact h
  · rw [cstr_of_not_mem h0] at h
    rw [(takeWhile_append_of_mem h.1 _).1]
    exact ⟨mem_append_left _ h.1, h.2⟩

theorem nameOf_append_of_none (h : nameOf s = none) (w : List UInt8) :
    nameOf (s ++ w) = if 0 ∈ s then none else (nameOf w).map (s ++ ·) := by
  rw [nameOf_eq_none_iff] at h
  split_ifs with h0
  · rw [nameOf, cstr_append, if_pos h0, if_neg h]
  · rw [cstr_of_not_mem h0] at h
    rw [nameOf, cstr_append, if_neg h0, nameOf, takeWhile_append_of_pos (forall_ne h)]
    by_cases hw : 58 ∈ cstr w <;> simp [h, hw]

theorem behindName_append (h : (nameOf s).isSome) (w : List UInt8) :
    behindName (s ++ w) = if 0 ∈ s then behindName s else behindName s ++ cstr w := by
  obtain ⟨name, hname⟩ := Option.isSome_iff_exists.mp h
  have h58 := (nameOf_eq_some_iff.mp hname).1
  rw [behindName, cstr_append]
  split_ifs with h0
  · rfl
  · rw [cstr_of_not_mem h0] at h58
    have hne : s.dropWhile (· ≠ 58) ≠ [] := by simpa using h58
    rw [behindName, cstr_of_not_mem h0, (takeWhile_append_of_mem h58 _).2, tail_append_of_ne_nil hne]

theorem field_append_of_mem (h : 58 ∈ s) (w : List UInt8) : field (s ++ w) = field s := by
  simp only [field, mem_append, h, true_or, if_true, (takeWhile_append_of_mem h w).1]

theorem nameOf_newline : nameOf (line ++ [10]) = nameOf line := by
  cases h : nameOf line with
  | none =>
    rw [nameOf_append_of_none h, show nameOf [10] = none from rfl]
    split <;> rfl
  | some name => exact nameOf_append_of_some h _

theorem fieldOf_newline {line : List UInt8} (h : (nameOf line).isSome) : fieldOf (line ++ [10]) = fieldOf line := by
  rw [fieldOf, fieldOf, behindName_append h]
  split
  · rfl
  · by_cases h58 : 58 ∈ behindName line
    · exact field_append_of_mem h58 _
    · have h58' : 58 ∉ behindName line ++ cstr [10] := by simp [h58, cstr]
      rw [field, field, if_neg h58, if_neg h58']

theorem field_colon (h : 58 ∉ s) (w : List UInt8) :
    field (s ++ 58 :: w) = if maxEncrypted ≤ s.length then .error e2big else .ok s := by
  rw [field, if_pos (by simp), takeWhile_append_of_pos (forall_ne h), takeWhile_cons_of_neg (by simp), append_nil]

/-- A text of four gulps is the longest one that fits the array and the limit of `passwd_find`. -/
theorem encrypted_fits_iff (cfg : Config) {password : List UInt8} (h : encrypt cfg password ≠ .tooBig)
    (rest : List UInt8) :
    ((encrypted cfg password).length ≤ maxEncrypted ∧ 58 ∉ encrypted cfg password ∧ 10 ∉ encrypted cfg password ∧
      field (encrypted cfg password ++ 58 :: rest) = .ok (encrypted cfg password)) ↔ password.length ≤ 32 := by
  have hcolon : 58 ∉ encrypted cfg password := encrypted_notMem cfg password (.inl rfl)
  have hlength := length_encrypted cfg password
  have hle : ¬36 < password.length := fun hlt => h (if_pos hlt)
  rw [field_colon hcolon, maxEncrypted]
  constructor
  · rintro ⟨hfits, -⟩
    omega
  · intro h32
    exact ⟨by omega, hcolon, encrypted_notMem cfg password (.inr (.inl rfl)), if_neg (by omega)⟩

theorem encrypted_fits_secret :
    encrypt defaultConfig (chars "secret".toList) ≠ .tooBig ∧
      field (encrypted defaultConfig (chars "secret".toList) ++ [58]) =
        .ok (encrypted defaultConfig (chars "secret".toList)) := by
  have h : encrypt defaultConfig (chars "secret".toList) ≠ .tooBig := nofun
  exact ⟨h, ((encrypted_fits_iff defaultConfig h []).mpr (by decide)).2.2.2⟩

/-- A password of 33 characters is accepted, and its text has 54. -/
theorem encrypted_overruns :
    encrypt defaultConfig (List.replicate 33 97) ≠ .tooBig ∧
      ¬(encrypted defaultConfig (List.replicate 33 97)).length ≤ maxEncrypted :=
  ⟨nofun, by decide⟩

variable (user : List UInt8)

/-- The line that `passwd_find` gives the offset of: the first one behind the last well-formed line in front of the
user's. -/
def victim (names : List (Option (List UInt8))) : Nat :=
  ((names.takeWhile (· ≠ some user)).rdropWhile (· = none)).length

theorem rdropWhile_cons {α : Type} (p : α → Bool) (a : α) (l : List α) :
    (a :: l).rdropWhile p = if l.rdropWhile p = [] then (if p a then [] else [a]) else a :: l.rdropWhile p := by
  simp only [List.rdropWhile, reverse_cons, dropWhile_append, reverse_eq_nil_iff, List.isEmpty_iff]
  split
  · cases h : p a <;> simp [h]
  · simp

section

variable (names : List (Option (List UInt8)))

theorem victim_user : victim user (some user :: names) = 0 := by
  rw [victim, takeWhile_cons_of_neg (by simp)]
  rfl

theorem victim_none : victim user (none :: names) = if victim user names = 0 then 0 else victim user names + 1 := by
  rw [victim, victim, takeWhile_cons_of_pos (by simp), rdropWhile_cons]
  generalize (names.takeWhile (· ≠ some user)).rdropWhile (· = none) = kept
  cases kept <;> simp

end

theorem victim_some {user name : List UInt8} (h : name ≠ user) (names : List (Option (List UInt8))) :
    victim user (some name :: names) = victim user names + 1 := by
  rw [victim, victim, takeWhile_cons_of_pos (by simpa using h), rdropWhile_cons]
  generalize (names.takeWhile (· ≠ some user)).rdropWhile (· = none) = kept
  cases kept <;> simp

theorem length_takeWhile_lt {user : List UInt8} {names : List (Option (List UInt8))} (h : some user ∈ names) :
    (names.takeWhile (· ≠ some user)).length < names.length := by
  have := congrArg List.length (eq_takeWhile_append h)
  rw [length_append, length_cons] at this
  omega

section

variable (names : List (Option (List UInt8)))

theorem victim_le : victim user names ≤ (names.takeWhile (· ≠ some user)).length :=
  ( rdropWhile_prefix _ _).length_le

theorem victim_eq_iff :
    victim user names = (names.takeWhile (· ≠ some user)).length ↔
      ∀ n ∈ (names.takeWhile (· ≠ some user)).getLast?, n ≠ none := by
  rw [victim]
  generalize names.takeWhile (· ≠ some user) = front
  have hself : (front.rdropWhile (· = none)).length = front.length ↔ front.rdropWhile (· = none) = front :=
    ⟨( rdropWhile_prefix _ _).eq_of_length, congrArg List.length⟩
  rw [hself, rdropWhile_eq_self_iff]
  by_cases hnil : front = []
  · simp [hnil]
  · simp [getLast?_eq_some_getLast hnil, hnil]

end

variable (ls : List (List UInt8))

def lookup : Except Errno (List UInt8) :=
  (ls.find? (nameOf · = some user)).elim (.error enoent) fieldOf

section

variable {user e : List UInt8} {ls : List (List UInt8)} (h : lookup user ls = .ok e)

include h

theorem exists_mem_of_lookup : ∃ line ∈ ls, nameOf line = some user ∧ fieldOf line = .ok e := by
  rw [lookup] at h
  cases hfind : ls.find? (nameOf · = some user) with
  | none =>
    rw [hfind] at h
    cases h
  | some line =>
    rw [hfind] at h
    exact ⟨line, mem_of_find?_eq_some hfind, by simpa using find?_some hfind, h⟩

theorem some_mem_of_lookup : some user ∈ ls.map nameOf := by
  obtain ⟨line, hline, hname, -⟩ := exists_mem_of_lookup h
  exact mem_map.mpr ⟨line, hline, hname⟩

end

theorem findLoop_eq (offset pos : Nat) :
    findLoop user ls offset pos = (lookup user ls).map fun e =>
      (if victim user (ls.map nameOf) = 0 then offset
        else pos + (ls.take (victim user (ls.map nameOf))).flatten.length, e) := by
  induction ls generalizing offset pos with
  | nil => rfl
  | cons line ls ih =>
    rw [findLoop, map_cons, lookup]
    cases hname : nameOf line with
    | none =>
      rw [find?_cons_of_neg (by simp [hname]), victim_none, ← lookup]
      simp only [ih]
      by_cases hv : victim user (ls.map nameOf) = 0
      · simp only [hv, if_true]
      · simp [hv, add_assoc]
    | some name =>
      by_cases hn : name = user
      · subst hn
        rw [find?_cons_of_pos (by simpa using hname), victim_user]
        simp
      · rw [find?_cons_of_neg (by simpa [hname] using hn), victim_some hn, ← lookup]
        simp only [if_neg hn, ih]
        by_cases hv : victim user (ls.map nameOf) = 0
        · simp [hv]
        · simp [hv, add_assoc]

theorem find_eq (cfg : Config) (file user : List UInt8) :
    find cfg file user = (lookup user (readLines (cfg.iobufferSize - 1) file)).map fun e =>
      (((readLines (cfg.iobufferSize - 1) file).take
        (victim user ((readLines (cfg.iobufferSize - 1) file).map nameOf))).flatten.length, e) := by
  rw [find, findLoop_eq]
  split_ifs with hv
  · simp [hv]
  · simp

theorem lookup_append (ls ls' : List (List UInt8)) :
    lookup user (ls ++ ls') = if (ls.find? (nameOf · = some user)).isSome then lookup user ls else lookup user ls' := by
  rw [lookup, lookup, lookup, find?_append]
  cases ls.find? (nameOf · = some user) <;> rfl

theorem lookup_newlines :
    lookup user (ls.map (· ++ [10])) = lookup user ls ∧
      ((ls.map (· ++ [10])).find? (nameOf · = some user)).isSome = (ls.find? (nameOf · = some user)).isSome := by
  have hcomp : (fun line => decide (nameOf line = some user)) ∘ (· ++ [10]) = (nameOf · = some user) := by
    funext line
    simp only [Function.comp_apply, nameOf_newline]
  rw [lookup, lookup, find?_map, hcomp]
  cases h : ls.find? (nameOf · = some user) with
  | none => exact ⟨rfl, rfl⟩
  | some line =>
    have hname : nameOf line = some user := by simpa using find?_some h
    exact ⟨fieldOf_newline (by simp [hname]), rfl⟩

/-- The contents of a password file: lines, and what is behind the last newline. -/
@[ext] structure Contents where
  lines : List (List UInt8)
  tail : List UInt8
  lines_newline : ∀ l ∈ lines, 10 ∉ l
  tail_newline : 10 ∉ tail

namespace Contents

variable (f : Contents)

def bytes : List UInt8 := f.lines.flatMap (· ++ [10]) ++ f.tail

def all : List (List UInt8) := f.lines ++ if f.tail = [] then [] else [f.tail]

def names : List (Option (List UInt8)) := f.all.map nameOf

def index (user : List UInt8) : Nat := (f.names.takeWhile (· ≠ some user)).length

/-- Every line fits the I/O buffer, with its newline and the NUL. -/
def Fits (cfg : Config) : Prop :=
  (∀ l ∈ f.lines, l.length + 1 < cfg.iobufferSize) ∧ f.tail.length < cfg.iobufferSize

def erase (i : Nat) : Contents :=
  if i < f.lines.length then
    { f with
      lines := f.lines.eraseIdx i
      lines_newline := fun l hl => f.lines_newline l (mem_of_mem_eraseIdx hl) }
  else { f with tail := [], tail_newline := not_mem_nil }

def start (i : Nat) : Nat := ((f.lines.take i).flatMap (· ++ [10])).length

variable {f} {cfg : Config}

section

variable (hf : f.Fits cfg)

include hf

theorem readLines_bytes_append (s : List UInt8) :
    readLines (cfg.iobufferSize - 1) (f.bytes ++ s) =
      f.lines.map (· ++ [10]) ++ readLines (cfg.iobufferSize - 1) (f.tail ++ s) := by
  have hlines : ∀ l ∈ f.lines, 10 ∉ l ∧ l.length < cfg.iobufferSize - 1 :=
    fun l hl => ⟨f.lines_newline l hl, by have := hf.1 l hl; omega⟩
  rw [bytes, append_assoc, readLines_flatMap hlines]

theorem readLines_bytes :
    readLines (cfg.iobufferSize - 1) f.bytes = f.lines.map (· ++ [10]) ++ if f.tail = [] then [] else [f.tail] := by
  have h := readLines_bytes_append hf []
  rw [append_nil, append_nil] at h
  rw [h]
  split_ifs with hnil
  · rw [hnil]
    rfl
  · have hcfg := cfg.two_le
    have hlength := hf.2
    rw [readLines_cons (by omega) hnil, fgets_of_not_mem f.tail_newline, take_of_length_le (by omega),
      drop_of_length_le (by omega)]
    rfl

theorem map_nameOf_readLines : (readLines (cfg.iobufferSize - 1) f.bytes).map nameOf = f.names := by
  rw [readLines_bytes hf, names, all, map_append, map_append, map_map]
  congr 2
  funext line
  exact nameOf_newline line

theorem lookup_readLines (user : List UInt8) :
    lookup user (readLines (cfg.iobufferSize - 1) f.bytes) = lookup user f.all := by
  have h := lookup_newlines user f.lines
  rw [readLines_bytes hf, all, lookup_append, lookup_append, h.1, h.2]

end

theorem length_all (f : Contents) : f.lines.length ≤ f.all.length ∧ f.all.length ≤ f.lines.length + 1 := by
  rw [all, length_append]
  split <;> simp

theorem index_lt {user : List UInt8} (h : some user ∈ f.names) : f.index user < f.all.length := by
  simpa [index, names] using length_takeWhile_lt h

theorem find_bytes (hf : f.Fits cfg) {user e : List UInt8} {o : Nat} (h : find cfg f.bytes user = .ok (o, e)) :
    lookup user f.all = .ok e ∧ o = f.start (victim user f.names) ∧ victim user f.names ≤ f.lines.length := by
  rw [find_eq, lookup_readLines hf, map_nameOf_readLines hf, readLines_bytes hf] at h
  cases hlookup : lookup user f.all with
  | error e => simp [hlookup, Except.map] at h
  | ok e' =>
    simp only [hlookup, Except.map, Except.ok.injEq, Prod.mk.injEq] at h
    have hle : victim user f.names ≤ f.lines.length := by
      have := victim_le user f.names
      have := index_lt (some_mem_of_lookup hlookup)
      rw [index] at this
      have := f.length_all
      omega
    refine ⟨by rw [h.2], ?_, hle⟩
    rw [← h.1, take_append_of_le_length (by simpa using hle), start, ← map_take, flatMap_def]

theorem delete_start (sizes : Nat → Nat) {i : Nat} (hi : i ≤ f.lines.length) :
    delete cfg sizes f.bytes (f.start i) = (0, (f.erase i).bytes) := by
  have hbytes : f.bytes = (f.lines.take i).flatMap (· ++ [10]) ++ ((f.lines.drop i).flatMap (· ++ [10]) ++ f.tail) := by
    rw [bytes, ← append_assoc, ← flatMap_append, take_append_drop]
  rw [delete_eq, hbytes, start, take_left, drop_left, erase]
  split_ifs with hlt
  · have hl := f.lines_newline _ (getElem_mem hlt)
    rw [drop_eq_getElem_cons hlt, flatMap_cons, append_assoc, append_assoc, dropWhile_append_of_pos (forall_ne hl)]
    simp [bytes, eraseIdx_eq_take_drop_succ]
  · have hnil : f.tail.dropWhile (· ≠ 10) = [] := dropWhile_eq_nil_iff.mpr (forall_ne f.tail_newline)
    rw [drop_of_length_le (by omega), flatMap_nil, nil_append, hnil, take_of_length_le (by omega)]
    rfl

theorem all_erase {i : Nat} (hi : i < f.all.length) : (f.erase i).all = f.all.eraseIdx i := by
  have hlength := f.length_all
  rw [erase, all, all]
  split
  · rename_i hlt
    rw [eraseIdx_append_of_lt_length hlt]
  · rename_i hge
    obtain rfl : i = f.lines.length := by omega
    rw [eraseIdx_append_of_length_le le_rfl, Nat.sub_self]
    by_cases hnil : f.tail = [] <;> simp [hnil]

theorem names_erase {i : Nat} (hi : i < f.all.length) : (f.erase i).names = f.names.eraseIdx i := by
  rw [names, names, all_erase hi, eraseIdx_map]

theorem Fits.erase (hf : f.Fits cfg) (i : Nat) : (f.erase i).Fits cfg := by
  rw [Contents.erase]
  split
  · exact ⟨fun l hl => hf.1 l (mem_of_mem_eraseIdx hl), hf.2⟩
  · exact ⟨hf.1, by have := cfg.two_le; simp; omega⟩

theorem bytes_erase_inj (hf : f.Fits cfg) {user : List UInt8} (h : some user ∈ f.names) {k : Nat}
    (hk : k ≤ f.index user) (heq : (f.erase k).bytes = (f.erase (f.index user)).bytes) : k = f.index user := by
  have hindex := index_lt h
  have hpost := eq_takeWhile_append h
  have hnames : f.names.eraseIdx k = f.names.eraseIdx (f.index user) := by
    rw [← names_erase (by omega), ← names_erase hindex, ← map_nameOf_readLines (hf.erase k), heq,
      map_nameOf_readLines (hf.erase _)]
  by_contra hne
  have hlt : k < (f.names.takeWhile (· ≠ some user)).length := by
    rw [index] at hne hk
    omega
  have hnotMem : some user ∉ f.names.takeWhile (· ≠ some user) := fun h => by simpa using mem_takeWhile_imp h
  rw [index] at hnames
  generalize f.names.takeWhile (· ≠ some user) = front at hnames hpost hlt hnotMem
  rw [hpost, eraseIdx_append_of_lt_length hlt, eraseIdx_append_of_length_le le_rfl, Nat.sub_self,
    eraseIdx_cons_zero, append_cons] at hnames
  -- the user would be among the names in front of it
  exact hnotMem (by rw [← append_cancel_right hnames]; simp)

/-- `passwd_delete` at the offset from `passwd_find` removes just the user's first line if and only if the line before
it has a name field. -/
theorem delete_find_iff (hf : f.Fits cfg) (sizes : Nat → Nat) {user e : List UInt8} {o : Nat}
    (h : find cfg f.bytes user = .ok (o, e)) :
    delete cfg sizes f.bytes o = (0, (f.erase (f.index user)).bytes) ↔
      ∀ n ∈ (f.names.takeWhile (· ≠ some user)).getLast?, n ≠ none := by
  obtain ⟨hlookup, rfl, hle⟩ := find_bytes hf h
  have hmem : some user ∈ f.names := some_mem_of_lookup hlookup
  rw [delete_start sizes hle, Prod.mk.injEq, and_iff_right rfl]
  have hvictim : (f.erase (victim user f.names)).bytes = (f.erase (f.index user)).bytes ↔
      victim user f.names = f.index user :=
    ⟨bytes_erase_inj hf hmem (victim_le user f.names), fun h => by rw [h]⟩
  rw [hvictim, index, victim_eq_iff]

def rootAndAdmin : Contents where
  lines := [chars "root:3pLVb5HHZgd:0:0:/".toList, chars "admin:8Tv+Hbmr3pL:0:0:/".toList]
  tail := []
  lines_newline := by decide
  tail_newline := by decide

theorem delete_admin :
    (rootAndAdmin.Fits defaultConfig ∧
      find defaultConfig rootAndAdmin.bytes (chars "admin".toList) = .ok (23, chars "8Tv+Hbmr3pL".toList)) ∧
    (delete defaultConfig (fun t => t) rootAndAdmin.bytes 23 =
        (0, (rootAndAdmin.erase (rootAndAdmin.index (chars "admin".toList))).bytes) ↔
      ∀ n ∈ (rootAndAdmin.names.takeWhile (· ≠ some (chars "admin".toList))).getLast?, n ≠ none) := by
  have hfits : rootAndAdmin.Fits defaultConfig := by
    constructor <;> decide
  have hfind : find defaultConfig rootAndAdmin.bytes (chars "admin".toList) =
      .ok (23, chars "8Tv+Hbmr3pL".toList) := by
    rfl
  exact ⟨⟨hfits, hfind⟩, delete_find_iff hfits _ hfind⟩

def remarkAndAdmin : Contents where
  lines := [chars "# staff".toList, chars "admin:8Tv+Hbmr3pL:0:0:/".toList]
  tail := []
  lines_newline := by decide
  tail_newline := by decide

/-- The other line is removed, and the user's record stays. -/
theorem delete_remark :
    remarkAndAdmin.Fits defaultConfig ∧
      find defaultConfig remarkAndAdmin.bytes (chars "admin".toList) = .ok (0, chars "8Tv+Hbmr3pL".toList) ∧
      delete defaultConfig (fun _ => 0) remarkAndAdmin.bytes 0 = (0, chars "admin:8Tv+Hbmr3pL:0:0:/\n".toList) ∧
      delete defaultConfig (fun _ => 0) remarkAndAdmin.bytes 0 ≠
        (0, (remarkAndAdmin.erase (remarkAndAdmin.index (chars "admin".toList))).bytes) := by
  have hdelete : delete defaultConfig (fun _ => 0) remarkAndAdmin.bytes 0 =
      (0, chars "admin:8Tv+Hbmr3pL:0:0:/\n".toList) := by
    decide
  refine ⟨?_, rfl, hdelete, ?_⟩
  · constructor <;> decide
  · rw [hdelete]
    decide

end Contents

end NuttxApps.Passwd
