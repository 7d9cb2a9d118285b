import NuttxApps.Ymodem.Session

/-!
# Files sent by `sb` to `rb`

The packets of a file, cut at the announced length, are its contents (`Rb.Writing.data`), written over what the file of
that name held (`calls_file`). The file is not truncated, so it holds what was sent exactly if neither the file before
nor an earlier one of that name is longer (`always_transferred_iff`).
-/

namespace NuttxApps.Ymodem

open Duplex Files
open List hiding max
open Settings (digits)

structure Portable extends Regular where
  short : name.length + (digits contents.length).length ≤ 126

namespace Portable

variable (env : Env) (f : Portable)

theorem exists_nameData_eq (n : Nat) : ∃ rest, nameData env n f.toFile = nameText f.name f.contents.length ++ rest := by
  have hsize := env.target.le_size
  have hshort := f.short
  have hsmall := f.small
  have hname : f.name.take (pathMax - 1) = f.name := take_of_length_le (by rw [pathMax]; omega)
  have htext : (nameText f.name f.contents.length).length ≤ 128 := by
    simp [nameText]
    omega
  rw [nameData, File.sent_of_lt (by omega), hname, append_assoc, take_append, take_of_length_le htext]
  exact ⟨_, rfl⟩

theorem nameOf_nameData (n k : Nat) : nameOf env k (nameData env n f.toFile) = .fileName f.name f.contents.length := by
  have hshort := f.short
  obtain ⟨rest, h⟩ := f.exists_nameData_eq env n
  rw [h]
  exact nameOf_nameText f.name_nul (by rw [pathMax]; omega) f.small k rest

end Portable

variable {env : Env}

def put (dir : List UInt8 → Option (List UInt8)) (name contents : List UInt8) : List UInt8 → Option (List UInt8) :=
  fun n => if n = name then some (overwrite ((dir n).getD []) 0 contents) else dir n

namespace Rb

/-- The open file is `name`, of `length` bytes, the first of which, `b`, have been written. -/
structure Writing (p : Rb) (dir : List UInt8 → Option (List UInt8)) (name : List UInt8) (length : Nat)
    (b : List UInt8) : Prop where
  opened : ∃ ss, p.opened = ⟨name, length, b⟩ :: ss
  dir : p.dir = put dir name b

variable {p : Rb} {dir : List UInt8 → Option (List UInt8)} {name b rest : List UInt8} {length : Nat}

theorem writing_openFile (p : Rb) (name : List UInt8) (length : Nat) :
    (p.openFile name length).Writing p.dir name length [] := by
  refine ⟨⟨p.opened, rfl⟩, ?_⟩
  funext n
  simp [openFile, put, overwrite_zero]

theorem Writing.write (h : p.Writing dir name length b) (piece : List UInt8) :
    (p.write piece).Writing dir name length (b ++ piece) := by
  obtain ⟨ss, hss⟩ := h.opened
  refine ⟨⟨ss, by simp only [Rb.write, hss]⟩, ?_⟩
  funext n
  simp only [Rb.write, hss, h.dir, put]
  split
  · rw [Option.getD_some, overwrite_append]
  · rfl

theorem Writing.piece_payload (h : p.Writing dir name (b ++ rest).length b) (env : Env) :
    p.piece (payload env rest) = rest.take (dataSize env rest) := by
  obtain ⟨ss, hss⟩ := h.opened
  simp only [Rb.piece, hss, length_payload, length_append, Nat.add_sub_cancel_left]
  by_cases hlt : rest.length < dataSize env rest
  · rw [if_pos (by omega), payload, take_of_length_le (Nat.le_of_lt hlt), take_left]
  · rw [if_neg (by omega), payload, Nat.sub_eq_zero_of_le (Nat.not_lt.mp hlt), replicate_zero, append_nil]

theorem Writing.data (h : p.Writing dir name length b) (payload : List UInt8) :
    (rb (fun _ => none) p (.data payload)).1.Writing dir name length (b ++ p.piece payload) := by
  have hcalls : ({ p with calls := p.calls + 1 } : Rb).Writing dir name length b := ⟨h.opened, h.dir⟩
  rw [rb_data]
  exact hcalls.write _

theorem Writing.payloads {contents : List UInt8} (env : Env) {fuel : Nat} (hfuel : rest.length < fuel)
    (h : p.Writing dir name contents.length b) (hrest : b ++ rest = contents) :
    (((payloadsAux env fuel rest).map Call.data).foldl (fun p c => (rb (fun _ => none) p c).1) p).Writing dir name
      contents.length contents := by
  induction fuel generalizing p b rest with
  | zero => exact absurd hfuel (Nat.not_lt_zero _)
  | succ fuel ih =>
    have hsize := dataSize_pos env rest
    have hdata := h.data (payload env rest)
    rw [Writing.piece_payload (hrest ▸ h) env] at hdata
    rw [payloadsAux, map_cons, foldl_cons]
    split_ifs with hmore
    · have hlength := length_pos_iff.mpr hmore
      rw [length_drop] at hlength
      exact ih (by rw [length_drop]; omega) hdata (by rw [append_assoc, take_append_drop, hrest])
    · rw [map_nil, foldl_nil]
      rw [ne_eq, not_not, drop_eq_nil_iff] at hmore
      rwa [take_of_length_le hmore, hrest] at hdata

end Rb

def Channel.intact (env : Env) : Channel env := ⟨fun _ => [], fun _ _ h => absurd h not_mem_nil⟩

def Link.files (env : Env) (sendRetry recvRetry : Int) : Link env Rb :=
  ⟨.intact env, sendRetry, recvRetry, rb fun _ => none, rb_total⟩

variable {sendRetry recvRetry : Int}

theorem tolerable_intact (i : Nat) (fs : List Regular) : (Channel.intact env).Tolerable (max recvRetry 0) i fs := by
  induction fs generalizing i with
  | nil => trivial
  | cons f fs ih => exact ⟨Int.le_max_right .., ih _⟩

variable (p : Rb)

theorem calls_file (f : File) :
    ((Link.files env sendRetry recvRetry).calls p
      (.fileName f.name f.contents.length :: (payloads env f.contents).map .data)).dir =
        put p.dir f.name f.contents := by
  have hopen : (rb (fun _ => none) p (.fileName f.name f.contents.length)).1.Writing p.dir f.name
      f.contents.length [] := Rb.writing_openFile { p with calls := p.calls + 1 } ..
  exact (hopen.payloads env (Nat.lt_succ_self _) (nil_append _)).dir

variable (fs : List Portable)

theorem calls_files {cs : List Call} (h : CallsFor env (fs.map Portable.toRegular) cs) :
    ((Link.files env sendRetry recvRetry).calls p cs).dir =
      fs.foldl (fun dir f => put dir f.name f.contents) p.dir := by
  induction fs generalizing p cs with
  | nil => rw [show cs = [] from h]; rfl
  | cons f fs ih =>
    obtain ⟨c, rest, ⟨n, k, hname⟩, hrest, rfl⟩ := h
    rw [f.nameOf_nameData env n k] at hname
    rw [hname, Link.calls, foldl_append]
    refine (ih _ hrest).trans ?_
    exact congrArg (fun dir => fs.foldl (fun dir f => put dir f.name f.contents) dir) (calls_file p f.toFile)

def named (n : List UInt8) : List Portable := fs.filter fun f => f.name = n

variable (dir : List UInt8 → Option (List UInt8))

theorem foldl_put (n : List UInt8) :
    fs.foldl (fun dir f => put dir f.name f.contents) dir n =
      if named fs n = [] then dir n
      else some (layers ((dir n).getD []) ((named fs n).map fun f => f.contents)) := by
  induction fs generalizing dir with
  | nil => rfl
  | cons f fs ih =>
    rw [foldl_cons, ih]
    by_cases hname : f.name = n
    · have hcons : named (f :: fs) n = f :: named fs n := filter_cons_of_pos (by simpa using hname)
      rw [hcons, if_neg (cons_ne_nil f _), put, if_pos hname.symm]
      split_ifs with hnil
      · rw [hnil]
        rfl
      · rfl
    · have hskip : named (f :: fs) n = named fs n := filter_cons_of_neg (by simpa using hname)
      rw [hskip, put, if_neg (Ne.symm hname)]

/-- Under every name that was sent there is a file with the contents of the last one of that name. -/
def Transferred : Prop :=
  ∀ n f, (named fs n).getLast? = some f → dir n = some f.contents

theorem transferred_foldl_put_iff :
    Transferred fs (fs.foldl (fun dir f => put dir f.name f.contents) dir) ↔
      ∀ n f, (named fs n).getLast? = some f → ((dir n).getD []).length ≤ f.contents.length ∧
        ∀ g ∈ named fs n, g.contents.length ≤ f.contents.length := by
  refine forall_congr' fun n => forall_congr' fun f => imp_congr_right fun hlast => ?_
  obtain ⟨gs, hgs⟩ := getLast?_eq_some_iff.mp hlast
  rw [foldl_put, hgs, if_neg (by simp), Option.some_inj, map_append, map_singleton, layers_concat_eq_iff,
    forall_mem_map, forall_mem_append, forall_mem_singleton, and_iff_left le_rfl]

theorem reaches_files (env : Env) (recvRetry : Int) (h : 0 < sendRetry) (fs : List Portable) (p : Rb) :
    ∃ d, (Link.files env sendRetry recvRetry).Reaches
        ((Link.files env sendRetry recvRetry).start p (fs.map fun f => some f.toFile)) d ∧
      d.left.1.phase = .done none ∧ d.right.ret = some none ∧
      d.right.priv.dir = fs.foldl (fun dir f => put dir f.name f.contents) p.dir := by
  have hstart := (Link.files env sendRetry recvRetry).reaches_start h p (fs.map fun f => some f.toFile)
  obtain ⟨d, hd, hleft, hright, cs, hcs, hpriv⟩ := (Link.files env sendRetry recvRetry).reaches_delivered
    (show (sendInit sendRetry (fs.map fun f => some f.toFile)).args =
      (fs.map Portable.toRegular).map fun f => some f.toFile by rw [map_map]; rfl)
    (show (Link.files env sendRetry recvRetry).Ready (recvInit p) 0 from ⟨rfl, rfl, rfl, fun h => absurd rfl h⟩)
    (fun _ => Int.le_max_right ..) (tolerable_intact 0 _)
  refine ⟨d, hstart.trans hd, hleft, hright, ?_⟩
  rw [hpriv]
  exact calls_files p fs hcs

/-- Both sides return 0 and the files are there exactly if the sender waits for a reply at all and, under each name,
nothing longer was there before. -/
theorem always_transferred_iff (env : Env) (sendRetry recvRetry : Int) (fs : List Portable) (p : Rb) :
    Always (Link.files env sendRetry recvRetry).sender (Link.files env sendRetry recvRetry).receiver
        ((Link.files env sendRetry recvRetry).start p (fs.map fun f => some f.toFile))
        (fun c => c.left.1.phase = .done none ∧ c.right.ret = some none ∧ Transferred fs c.right.priv.dir) ↔
      0 < sendRetry ∧ ∀ n f, (named fs n).getLast? = some f → ((p.dir n).getD []).length ≤ f.contents.length ∧
        ∀ g ∈ named fs n, g.contents.length ≤ f.contents.length := by
  by_cases hretry : 0 < sendRetry
  · obtain ⟨d, hd, hleft, hright, hdir⟩ := reaches_files env recvRetry hretry fs p
    rw [always_iff_of_runs hd (Link.stopped_of_returned _ hleft hright), hdir, transferred_foldl_put_iff]
    exact ⟨fun h => ⟨hretry, h.2.2⟩, fun h => ⟨hleft, hright, h.2⟩⟩
  · exact iff_of_false (Link.not_always_of_no_retry _ (fun c h => ⟨h.1, h.2.1⟩) hretry p _) (fun h => hretry h.1)

def Portable.abc : Portable := ⟨.abc, by decide⟩

/-- A file `a` of four bytes is there when `abc` is sent under that name: its last byte stays. -/
theorem not_transferred_longer :
    ¬ Always (Link.files .plain 100 100).sender (Link.files .plain 100 100).receiver
      ((Link.files .plain 100 100).start ⟨fun n => if n = [97] then some [1, 2, 3, 4] else none, [], 0⟩
        [some Portable.abc.toFile])
      (fun c => c.left.1.phase = .done none ∧ c.right.ret = some none ∧ Transferred [.abc] c.right.priv.dir) := by
  obtain ⟨d, hd, hleft, hright, hdir⟩ := reaches_files .plain 100 (show 0 < (100 : Int) by decide) [.abc]
    ⟨fun n => if n = [97] then some [1, 2, 3, 4] else none, [], 0⟩
  intro halways
  have htransferred := ((always_iff_of_runs hd (Link.stopped_of_returned _ hleft hright)).mp halways).2.2
  rw [hdir] at htransferred
  exact absurd (htransferred [97] .abc rfl) (by decide)

end NuttxApps.Ymodem
