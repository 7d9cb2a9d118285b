import NuttxApps.Passwd.Verify

/-!
# The password file as a table

Calls that add, update and delete users do to the file what they do to a table (`runs_eq`). There, an update with too
long a password removes the user.
-/

namespace NuttxApps.Passwd

open CString Libc
open List hiding lookup

section

variable (cfg : Config)

/-- `passwd_deluser`. -/
def deluser (env : Env) (sizes : Nat → Nat) (file user : List UInt8) : Int × List UInt8 :=
  match findIn cfg env file user with
  | .error errcode => (-errcode.code, file)
  | .ok (offset, _) => match env.delete with
    | some errcode => (-errcode.code, file)
    | none => delete cfg sizes file offset

/-- A user whose record fits a line, and a password that is stored or refused. -/
structure Login where
  user : Username
  user_fits : user.chars.length + 51 < cfg.iobufferSize
  password : CStr
  ne_overrun : encrypt cfg password.chars ≠ .overrun

/-- A call where the file system does not fail; `sizes` says how much it moves at a time. -/
inductive Call
  | adduser (l : Login cfg)
  | update (l : Login cfg) (sizes : Nat → Nat)
  | deluser (user : List UInt8) (sizes : Nat → Nat)

def Call.run (file : List UInt8) : Call cfg → Option (Int × List UInt8)
  | adduser l => Passwd.adduser cfg .ok file l.user.chars l.password.chars
  | update l sizes => Passwd.update cfg .ok sizes file l.user.chars l.password.chars
  | deluser user sizes => some (Passwd.deluser cfg .ok sizes file user)

/-- What the calls return, and the file. -/
def runs : List UInt8 → List (Call cfg) → Option (List Int × List UInt8)
  | file, [] => some ([], file)
  | file, c :: cs => (c.run cfg file).bind fun r => (runs r.2 cs).map fun q => (r.1 :: q.1, q.2)

end

variable {cfg : Config}

def names (ls : List (Login cfg)) : List (List UInt8) := ls.map (·.user.chars)

@[ext] structure Table (cfg : Config) where
  logins : List (Login cfg)
  stored : ∀ l ∈ logins, l.password.chars.length ≤ 32
  distinct : (names logins).Nodup

variable (t : Table cfg) (l : Login cfg) {ls : List (Login cfg)} {user : List UInt8}

namespace Table

def remove (user : List UInt8) : Table cfg where
  logins := t.logins.filter (·.user.chars ≠ user)
  stored l hl := t.stored l (mem_of_mem_filter hl)
  distinct := t.distinct.sublist (filter_sublist.map _)

def set (h : l.password.chars.length ≤ 32) : Table cfg where
  logins := (t.remove l.user.chars).logins ++ [l]
  stored := forall_mem_append.mpr ⟨(t.remove _).stored, by simpa using h⟩
  distinct := by
    rw [names, map_append, nodup_append_comm]
    exact nodup_cons.mpr ⟨by simp [remove], (t.remove _).distinct⟩

/-- What a call does to a table. -/
def perform : Call cfg → Int × Table cfg
  | .adduser l =>
    if l.user.chars ∈ names t.logins then (-eexist.code, t)
    else if h : l.password.chars.length ≤ 32 then (0, t.set l h) else (-e2big.code, t)
  | .update l _ =>
    if l.user.chars ∈ names t.logins then
      if h : l.password.chars.length ≤ 32 then (0, t.set l h) else (-e2big.code, t.remove l.user.chars)
    else (-enoent.code, t)
  | .deluser user _ => if user ∈ names t.logins then (0, t.remove user) else (-enoent.code, t)

def performs : Table cfg → List (Call cfg) → List Int × Table cfg
  | t, [] => ([], t)
  | t, c :: cs => ((t.perform c).1 :: (performs (t.perform c).2 cs).1, (performs (t.perform c).2 cs).2)

end Table

def Login.line : List UInt8 :=
  l.user.chars ++ 58 :: (encrypted cfg l.password.chars ++ 58 :: [48, 58, 48, 58, 47])

theorem line_newline : l.line ++ [10] = record l.user.chars (encrypted cfg l.password.chars) := by
  rw [Login.line, record, show chars ":0:0:/\n".toList = [58, 48, 58, 48, 58, 47, 10] from rfl]
  simp

theorem nil_newline : (10 : UInt8) ∉ [] := not_mem_nil

def Table.file : Contents where
  lines := t.logins.map Login.line
  tail := []
  lines_newline := by simp [Login.line, Username.newline_notMem, encrypted_notMem]
  tail_newline := nil_newline

theorem nameOf_line : nameOf l.line = some l.user.chars :=
  nameOf_record ⟨l.user.colon_notMem, l.user.nul_notMem⟩ _

theorem fits_file : t.file.Fits cfg := by
  refine ⟨forall_mem_map.mpr fun l hl => ?_, Nat.lt_of_succ_lt cfg.two_le⟩
  have := length_encrypted cfg l.password.chars
  have := t.stored l hl
  have := l.user_fits
  simp only [Login.line, length_append, length_cons, length_nil]
  omega

theorem all_file : t.file.all = t.logins.map Login.line := append_nil _

def field? (l : Option (Login cfg)) : Except Errno (List UInt8) :=
  l.elim (.error enoent) fun l => .ok (encrypted cfg l.password.chars)

theorem lookup_lines (h : ∀ l ∈ ls, l.password.chars.length ≤ 32) :
    lookup user (ls.map Login.line) = field? (ls.find? (·.user.chars = user)) := by
  induction ls with
  | nil => rfl
  | cons l ls ih =>
    rw [forall_mem_cons] at h
    rw [map_cons, lookup_cons, nameOf_line, find?_cons]
    by_cases hu : l.user.chars = user
    · have hfields : Fields l.user.chars (encrypted cfg l.password.chars) := fields_encrypted l.user h.1
      simp only [hu]
      exact fieldOf_record ⟨hfields.user_colon, hfields.user_nul⟩ ⟨hfields.colon, hfields.nul⟩ hfields.length_lt _
    · simpa [hu] using ih h.2

theorem lookup_file :
    lookup user (readLines (cfg.iobufferSize - 1) t.file.bytes) = field? (t.logins.find? (·.user.chars = user)) := by
  rw [Contents.lookup_readLines (fits_file t), all_file, lookup_lines t.stored]

theorem eraseIdx_victim (hdistinct : (names ls).Nodup) (h : user ∈ names ls) :
    victim user (ls.map fun l => some l.user.chars) < ls.length ∧
      ls.eraseIdx (victim user (ls.map fun l => some l.user.chars)) = ls.filter (·.user.chars ≠ user) := by
  induction ls with
  | nil => simp [names] at h
  | cons l ls ih =>
    obtain ⟨hl, hdistinct⟩ := nodup_cons.mp hdistinct
    by_cases hu : l.user.chars = user
    · subst hu
      rw [map_cons, victim_user, filter_cons_of_neg (by simp), eraseIdx_cons_zero, eq_comm, filter_eq_self]
      exact ⟨by simp, fun l' hl' => by simpa using fun he => hl (mem_map.mpr ⟨l', hl', he⟩)⟩
    · rw [map_cons, victim_some hu, filter_cons_of_pos (by simpa using hu), eraseIdx_cons_succ]
      obtain ⟨hlt, he⟩ := ih hdistinct ((mem_cons.mp h).resolve_left (Ne.symm hu))
      exact ⟨by simpa using hlt, by rw [he]⟩

theorem find_of_not_mem (h : user ∉ names t.logins) : find cfg t.file.bytes user = .error enoent := by
  have hnone : t.logins.find? (·.user.chars = user) = none := by simpa [names] using h
  rw [find_eq, lookup_file, hnone]
  rfl

theorem find_of_mem (h : user ∈ names t.logins) : ∃ o e, find cfg t.file.bytes user = .ok (o, e) ∧
    ∀ sizes, delete cfg sizes t.file.bytes o = (0, (t.remove user).file.bytes) := by
  obtain ⟨l, hl⟩ : ∃ l, t.logins.find? (·.user.chars = user) = some l := by
    simpa [names, ← Option.isSome_iff_exists] using h
  have hfind := find_eq cfg t.file.bytes user
  rw [lookup_file, hl] at hfind
  refine ⟨_, _, hfind, fun sizes => ?_⟩
  have hnames : t.file.names = t.logins.map fun l => some l.user.chars := by
    rw [Contents.names, all_file, map_map]
    exact map_congr_left fun l _ => nameOf_line l
  obtain ⟨hlt, herase⟩ := eraseIdx_victim t.distinct h
  obtain ⟨-, ho, hle⟩ := Contents.find_bytes (fits_file t) hfind
  rw [ho, Contents.delete_start sizes hle, hnames, Contents.erase, if_pos (by simpa [Table.file] using hlt)]
  simp only [Contents.bytes, Table.file, Table.remove, eraseIdx_map, herase]

theorem bytes_set (h : l.password.chars.length ≤ 32) :
    (t.set l h).file.bytes = (t.remove l.user.chars).file.bytes ++
      record l.user.chars (encrypted cfg l.password.chars) := by
  simp [Contents.bytes, Table.file, Table.set, ← line_newline]

theorem append_eq (file : List UInt8) :
    append cfg .ok file l.user.chars l.password.chars =
      if l.password.chars.length ≤ 32 then some (0, file ++ record l.user.chars (encrypted cfg l.password.chars))
      else some (-(e2big.code : Int), file) := by
  rw [append]
  split_ifs with h
  · rw [(encrypt_eq_ok_iff cfg).mpr ⟨h, rfl⟩]
    rfl
  · have hbig := (encrypt_eq_overrun_iff cfg).not.mp l.ne_overrun
    rw [encrypt, if_pos (by rw [maxPassword, maxEncrypted]; omega)]

theorem run_file (c : Call cfg) :
    c.run cfg t.file.bytes = some ((t.perform c).1, (t.perform c).2.file.bytes) := by
  cases c with
  | adduser l =>
    by_cases h : l.user.chars ∈ names t.logins
    · obtain ⟨o, e, hfind, -⟩ := find_of_mem t h
      simp [Call.run, adduser, findIn, Env.ok, hfind, Table.perform, h]
    · have hself : t.remove l.user.chars = t :=
        Table.ext (filter_eq_self.mpr fun l' hl' => by simpa using fun he => h (mem_map.mpr ⟨l', hl', he⟩))
      simp only [Call.run, adduser, findIn, Env.ok, find_of_not_mem t h, Table.perform, h, if_false]
      rw [← Env.ok, append_eq]
      split_ifs <;> simp [bytes_set, hself, e2big]
  | update l sizes =>
    by_cases h : l.user.chars ∈ names t.logins
    · obtain ⟨o, e, hfind, hdelete⟩ := find_of_mem t h
      rw [Call.run, update_of_find hfind, hdelete, append_eq, Table.perform, if_pos h]
      split_ifs <;> simp [bytes_set]
    · simp [Call.run, update, findIn, Env.ok, find_of_not_mem t h, Table.perform, h]
  | deluser user sizes =>
    by_cases h : user ∈ names t.logins
    · obtain ⟨o, e, hfind, hdelete⟩ := find_of_mem t h
      simp [Call.run, deluser, findIn, Env.ok, hfind, hdelete, Table.perform, h]
    · simp [Call.run, deluser, findIn, Env.ok, find_of_not_mem t h, Table.perform, h]

/-- Every run of calls returns what it returns on the table, and `passwd_verify` then accepts what is in it, up to
spaces that fill the last gulp. -/
theorem runs_eq (cs : List (Call cfg)) :
    runs cfg t.file.bytes cs = some ((t.performs cs).1, (t.performs cs).2.file.bytes) ∧
      ∀ user password, verify cfg (t.performs cs).2.file.bytes user password = some 1 ↔ password.length ≤ 32 ∧
        ∃ l ∈ (t.performs cs).2.logins, l.user.chars = user ∧ padded l.password.chars = padded password := by
  refine ⟨?_, fun user password => ?_⟩
  · induction cs generalizing t with
    | nil => rfl
    | cons c cs ih => simp [runs, Table.performs, run_file, ih]
  generalize (t.performs cs).2 = t
  rw [verify_eq_one_iff, lookup_file]
  cases hfind : t.logins.find? (·.user.chars = user) with
  | none =>
    have hnone : ∀ l ∈ t.logins, l.user.chars ≠ user := by simpa using hfind
    simp only [field?, Option.elim_none, reduceCtorEq, false_and, exists_false, false_iff]
    rintro ⟨-, l, hl, hu, -⟩
    exact hnone l hl hu
  | some l =>
    have hl := mem_of_find?_eq_some hfind
    have hu : l.user.chars = user := by simpa using find?_some hfind
    -- no other record has the name
    have honly : ∀ l' ∈ t.logins, l'.user.chars = user → l' = l :=
      fun l' hl' hu' => inj_on_of_nodup_map t.distinct hl' hl (hu'.trans hu.symm)
    simp only [field?, Option.elim_some, Except.ok.injEq, exists_eq_left', encrypt_eq_ok_iff, encrypted_eq_iff]
    refine and_congr_right fun _ => ⟨fun h => ⟨l, hl, hu, h⟩, ?_⟩
    rintro ⟨l', hl', hu', h⟩
    exact honly l' hl' hu' ▸ h

theorem nsh_notMem : 0 ∉ chars "nsh".toList ∧ 58 ∉ chars "nsh".toList ∧ 10 ∉ chars "nsh".toList := by decide

theorem nsh_fits : (chars "nsh".toList).length + 51 < defaultConfig.iobufferSize := by decide

theorem ne_overrun_of_le {password : List UInt8} (h : password.length ≤ 32) :
    encrypt defaultConfig password ≠ .overrun :=
  (encrypt_eq_overrun_iff defaultConfig).not.mpr (by omega)

def nsh (password : CStr) (h : password.chars.length ≤ 32) : Login defaultConfig where
  user := ⟨⟨chars "nsh".toList, nsh_notMem.1⟩, nsh_notMem.2.1, nsh_notMem.2.2⟩
  user_fits := nsh_fits
  password := password
  ne_overrun := ne_overrun_of_le h

def empty : Table defaultConfig := ⟨[], forall_mem_nil _, nodup_nil⟩

/-- `nsh` is added, gets another password and is added once more; `root` cannot be deleted. -/
theorem runs_eq_nsh :
    ∃ file, runs defaultConfig [] [.adduser (nsh ⟨chars "secret".toList, by decide⟩ (by decide)),
        .update (nsh ⟨chars "12345678".toList, by decide⟩ (by decide)) (fun _ => 0),
        .adduser (nsh ⟨chars "secret".toList, by decide⟩ (by decide)), .deluser (chars "root".toList) (fun _ => 1)] =
          some ([0, 0, -17, -2], file) ∧
      verify defaultConfig file (chars "nsh".toList) (chars "12345678".toList) = some 1 := by
  obtain ⟨hruns, hverify⟩ := runs_eq empty [.adduser (nsh ⟨chars "secret".toList, by decide⟩ (by decide)),
    .update (nsh ⟨chars "12345678".toList, by decide⟩ (by decide)) (fun _ => 0),
    .adduser (nsh ⟨chars "secret".toList, by decide⟩ (by decide)), .deluser (chars "root".toList) (fun _ => 1)]
  refine ⟨_, hruns, (hverify _ _).mpr ⟨by decide, nsh ⟨chars "12345678".toList, by decide⟩ (by decide), ?_, rfl, rfl⟩⟩
  exact mem_singleton_self _

end NuttxApps.Passwd
