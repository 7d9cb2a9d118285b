import NuttxApps.Ipcfg.Text

/-!
# IP configuration files as two cells

A file in either format stands for two cells, one for each address family (`represents`); a write sets the cell of its
family and leaves the other one (`ipcfgWrite_represents`). So after any writes a read gives what was last written for
its family.
-/

namespace NuttxApps.Ipcfg

open Bytes CString Libc
open List

/-- `CONFIG_IPCFG_BINARY`, on a target of either byte order, or the text format. -/
inductive Format
  | binary (big : Bool)
  | text (inet : Inet)

inductive Config
  | ipv4 (c : Ipv4cfg)
  | ipv6 (c : Ipv6cfg)
deriving DecidableEq, Repr

def Config.family : Config → Family
  | .ipv4 _ => .inet
  | .ipv6 _ => .inet6

def Config.Valid : Config → Prop
  | .ipv4 c => c.proto ≤ 3
  | .ipv6 c => c.proto ≤ 3

variable (format : Format) (netdev : Netdev) (file : Option (List UInt8))

def ipcfgRead : Family → Except Errno Config
  | .inet => match format with
    | .binary big => (readBinaryIpv4 big file).map .ipv4
    | .text inet => (readTextIpv4 inet file).map .ipv4
  | .inet6 => match format with
    | .binary big => (readBinaryIpv6 big file).map .ipv6
    | .text inet => (readTextIpv6 inet file).map .ipv6

def written (r : Except Errno (List UInt8)) : Except Errno Unit × Option (List UInt8) :=
  match r with
  | .ok file => (.ok (), some file)
  | .error e => (.error e, file)

def ipcfgWrite :
    Config → Except Errno Unit × Option (List UInt8)
  | .ipv4 c => match format with
    | .binary big => written file (writeBinaryIpv4 big file c)
    | .text inet => writeTextIpv4 inet netdev file c
  | .ipv6 c => match format with
    | .binary big => written file (writeBinaryIpv6 big file c)
    | .text inet => writeTextIpv6 inet netdev file c

def ipcfgWrites (format : Format) (netdev : Netdev) : Option (List UInt8) → List Config → Option (Option (List UInt8))
  | file, [] => some file
  | file, c :: cs => match ipcfgWrite format netdev file c with
    | (.ok _, file) => ipcfgWrites format netdev file cs
    | (.error _, _) => none

structure Cells where
  ipv4 : Option Ipv4cfg
  ipv6 : Option Ipv6cfg

variable {cells : Cells}

namespace Cells

def empty : Cells := ⟨none, none⟩

def get (cells : Cells) : Family → Option Config
  | .inet => cells.ipv4.map .ipv4
  | .inet6 => cells.ipv6.map .ipv6

def set (cells : Cells) : Config → Cells
  | .ipv4 c => { cells with ipv4 := some c }
  | .ipv6 c => { cells with ipv6 := some c }

theorem get_set (cells : Cells) (c : Config) (af : Family) :
    (cells.set c).get af = if c.family = af then some c else cells.get af := by
  cases c <;> cases af <;> rfl

def Valid (cells : Cells) : Prop := (∀ c ∈ cells.ipv4, c.proto ≤ 3) ∧ ∀ c ∈ cells.ipv6, c.proto ≤ 3

theorem valid_empty : empty.Valid := ⟨by simp [empty], by simp [empty]⟩

theorem Valid.set (h : cells.Valid) {c : Config} (hc : c.Valid) : (cells.set c).Valid := by
  cases c with
  | ipv4 c => exact ⟨by simpa [Cells.set, Config.Valid] using hc, h.2⟩
  | ipv6 c => exact ⟨h.1, by simpa [Cells.set, Config.Valid] using hc⟩

def last (af : Family) (cs : List Config) : Option Config := (cs.filter (·.family = af)).getLast?

theorem get_foldl_set (cs : List Config) (cells : Cells) (af : Family) :
    (cs.foldl set cells).get af = (last af cs).or (cells.get af) := by
  induction cs generalizing cells with
  | nil => rfl
  | cons c cs ih =>
    rw [foldl_cons, ih, get_set, last, last, filter_cons]
    by_cases hc : c.family = af
    · rw [if_pos hc, if_pos (by simpa using hc), getLast?_cons]
      cases (cs.filter (·.family = af)).getLast? <;> rfl
    · rw [if_neg hc, if_neg (by simpa using hc)]

end Cells

section

variable (format : Format) (netdev : Netdev)

def fileOf (cells : Cells) : Option (List UInt8) :=
  match format with
  | .binary big => image big cells.ipv4 cells.ipv6
  | .text inet => text inet netdev cells.ipv4 cells.ipv6

theorem fileOf_empty : fileOf format netdev .empty = none := by
  cases format <;> rfl

theorem map_found {α β : Type} (f : α → β) (o : Option α) : (found o).map f = found (o.map f) := by
  cases o <;> rfl

/-- The text of a file is read as the cells. -/
structure Stored (inet : Inet) (file : Option (List UInt8)) (cells : Cells) : Prop where
  valid : cells.Valid
  ipv4 : readTextIpv4 inet file = found cells.ipv4
  ipv6 : readTextIpv6 inet file = found cells.ipv6

/-- What is left of the cells when a configuration is rejected; the file was opened with `"w"`. -/
def Config.left (cells : Cells) : Config → Cells
  | .ipv4 _ => .empty
  | .ipv6 _ => { cells with ipv6 := none }

section

variable {inet : Inet} {file : Option (List UInt8)} {c : Config}

theorem stored_print (h : cells.Valid) :
    Stored inet (some (print ((device, netdev.name) :: pairs inet cells.ipv4 cells.ipv6))) cells :=
  ⟨h, readTextIpv4_print inet netdev _ _ h.1, readTextIpv6_print inet netdev _ _ h.2⟩

theorem stored_fileOf (inet : Inet) (h : cells.Valid) : Stored inet (fileOf (.text inet) netdev cells) cells := by
  rw [fileOf, text]
  split_ifs with hnone
  · exact ⟨h, hnone.1 ▸ rfl, hnone.2 ▸ rfl⟩
  · exact stored_print netdev h

variable (h : Stored inet file cells)

include h

theorem Stored.read (af : Family) : ipcfgRead (.text inet) file af = found (cells.get af) := by
  cases af with
  | inet => rw [ipcfgRead, h.ipv4, map_found, Cells.get]
  | inet6 => rw [ipcfgRead, h.ipv6, map_found, Cells.get]

theorem Stored.accepted (hc : c.Valid) :
    ipcfgWrite (.text inet) netdev file c =
      (.ok (), some (print ((device, netdev.name) :: pairs inet (cells.set c).ipv4 (cells.set c).ipv6))) := by
  cases c with
  | ipv4 c => exact (writeTextIpv4_eq inet netdev h.ipv6 h.valid.2 c).trans (if_neg (UInt32.not_lt.mpr hc))
  | ipv6 c => exact (writeTextIpv6_eq inet netdev h.ipv4 h.valid.1 c).trans (if_neg (UInt32.not_lt.mpr hc))

theorem Stored.rejected (hc : ¬ c.Valid) :
    ∃ file', ipcfgWrite (.text inet) netdev file c = (.error .einval, file') ∧ Stored inet file' (c.left cells) := by
  cases c with
  | ipv4 c =>
    have hwrite := (writeTextIpv4_eq inet netdev h.ipv6 h.valid.2 c).trans (if_pos (UInt32.not_le.mp hc))
    exact ⟨_, hwrite, Cells.valid_empty, rfl, rfl⟩
  | ipv6 c =>
    have hwrite := (writeTextIpv6_eq inet netdev h.ipv4 h.valid.1 c).trans (if_pos (UInt32.not_le.mp hc))
    have hvalid : (Config.left cells (.ipv6 c)).Valid := ⟨h.valid.1, by simp [Config.left]⟩
    exact ⟨_, hwrite, stored_print netdev hvalid⟩

theorem Stored.write (c : Config) : ∃ cells', Stored inet (ipcfgWrite (.text inet) netdev file c).2 cells' := by
  by_cases hc : c.Valid
  · rw [h.accepted netdev hc]
    exact ⟨_, stored_print netdev (h.valid.set hc)⟩
  · obtain ⟨file', hwrite, hleft⟩ := h.rejected netdev hc
    rw [hwrite]
    exact ⟨_, hleft⟩

end

theorem ipcfgRead_fileOf (h : cells.Valid) (af : Family) :
    ipcfgRead format (fileOf format netdev cells) af = found (cells.get af) := by
  cases format with
  | binary big =>
    cases af with
    | inet => simp only [ipcfgRead, fileOf, readBinaryIpv4_image, map_found, Cells.get]
    | inet6 => simp only [ipcfgRead, fileOf, readBinaryIpv6_image, map_found, Cells.get]
  | text inet => exact (stored_fileOf netdev inet h).read af

theorem written_of_map {file file' : Option (List UInt8)} {r : Except Errno (List UInt8)} (h : r.map some = .ok file') :
    written file r = (.ok (), file') := by
  cases r with
  | error e => simp [Except.map] at h
  | ok bs => exact congrArg (Prod.mk _) (Except.ok.inj h)

theorem ipcfgWrite_fileOf (h : cells.Valid) {c : Config} (hc : c.Valid) :
    ipcfgWrite format netdev (fileOf format netdev cells) c = (.ok (), fileOf format netdev (cells.set c)) := by
  cases format with
  | binary big =>
    cases c with
    | ipv4 c => exact written_of_map (writeBinaryIpv4_image big _ _ c)
    | ipv6 c => exact written_of_map (writeBinaryIpv6_image big _ _ c)
  | text inet =>
    rw [(stored_fileOf netdev inet h).accepted netdev hc, fileOf, text, if_neg (by cases c <;> simp [Cells.set])]

theorem ipcfgWrites_fileOf (h : cells.Valid) {cs : List Config} (hcs : ∀ c ∈ cs, c.Valid) :
    ipcfgWrites format netdev (fileOf format netdev cells) cs = some (fileOf format netdev (cs.foldl .set cells)) ∧
      (cs.foldl .set cells).Valid := by
  induction cs generalizing cells with
  | nil => exact ⟨rfl, h⟩
  | cons c cs ih =>
    rw [forall_mem_cons] at hcs
    rw [ipcfgWrites, ipcfgWrite_fileOf format netdev h hcs.1, foldl_cons]
    exact ih (h.set hcs.1) hcs.2

/-- All writes succeed, and each family reads as what was last written for it. -/
theorem ipcfgRead_ipcfgWrites {cs : List Config} (hcs : ∀ c ∈ cs, c.Valid) :
    ∃ file, ipcfgWrites format netdev none cs = some file ∧
      ∀ af, ipcfgRead format file af = found (Cells.last af cs) := by
  have h := ipcfgWrites_fileOf format netdev Cells.valid_empty hcs
  rw [fileOf_empty] at h
  refine ⟨_, h.1, fun af => ?_⟩
  rw [ipcfgRead_fileOf format netdev h.2, Cells.get_foldl_set]
  cases af <;> simp [Cells.get, Cells.empty]

end

/-- The families of which a rejected configuration leaves nothing. -/
def Config.lost : Config → List Family
  | .ipv4 _ => [.inet, .inet6]
  | .ipv6 _ => [.inet6]

theorem get_left (cells : Cells) (c : Config) (af : Family) :
    (c.left cells).get af = if af ∈ c.lost then none else cells.get af := by
  cases c <;> cases af <;> rfl

/-- The file that calls of `ipcfg_write` leave, whether or not they succeed. -/
def ipcfgFile (cs : List Config) : Option (List UInt8) :=
  cs.foldl (fun file c => (ipcfgWrite format netdev file c).2) none

theorem exists_stored (inet : Inet) (netdev : Netdev) (cs : List Config) :
    ∃ cells, Stored inet (ipcfgFile (.text inet) netdev cs) cells := by
  refine foldlRecOn (motive := fun file => ∃ cells, Stored inet file cells) cs _ ?_ fun file h c _ => ?_
  · exact ⟨.empty, Cells.valid_empty, rfl, rfl⟩
  · obtain ⟨cells, h⟩ := h
    exact h.write netdev c

/-- A rejected configuration changes nothing exactly if the families it clears have no configuration in the file. -/
theorem rejected_kept_iff (inet : Inet) (netdev : Netdev) (cs : List Config) (c : Config) :
    (∀ e file, ipcfgWrite (.text inet) netdev (ipcfgFile (.text inet) netdev cs) c = (.error e, file) →
        ∀ af, ipcfgRead (.text inet) file af = ipcfgRead (.text inet) (ipcfgFile (.text inet) netdev cs) af) ↔
      c.Valid ∨ ∀ af ∈ c.lost, ipcfgRead (.text inet) (ipcfgFile (.text inet) netdev cs) af = .error .enoent := by
  obtain ⟨cells, h⟩ := exists_stored inet netdev cs
  simp only [h.read]
  by_cases hc : c.Valid
  · simp [h.accepted netdev hc, hc]
  · obtain ⟨file', hwrite, hleft⟩ := h.rejected netdev hc
    simp only [hwrite, hc, false_or]
    constructor
    · intro hkept af haf
      rw [← hkept _ _ rfl af, hleft.read, get_left, if_pos haf]
      rfl
    · rintro hlost _ _ ⟨⟩ af
      rw [hleft.read, get_left]
      split_ifs with haf
      · exact (hlost af haf).symm
      · rfl

theorem rejected_clears :
    let netdev : Netdev := ⟨chars "eth0".toList, by decide, by decide⟩
    ∃ file, ipcfgWrite (.text .plain) netdev (ipcfgFile (.text .plain) netdev [.ipv4 ⟨2, 0, 0, 0, 0⟩])
        (.ipv4 ⟨4, 0, 0, 0, 0⟩) = (.error .einval, file) ∧
      ipcfgRead (.text .plain) file .inet ≠
        ipcfgRead (.text .plain) (ipcfgFile (.text .plain) netdev [.ipv4 ⟨2, 0, 0, 0, 0⟩]) .inet :=
  ⟨_, rfl, nofun⟩

def eth0Writes : List Config :=
  [.ipv4 ⟨1, 0x0200000a, 0x00ffffff, 0x0100000a, 0⟩,
    .ipv6 ⟨1, ⟨0x111100fd, 0x33332222, 0x55554444, 0x77776666⟩, .zero, .zero⟩, .ipv4 ⟨2, 0, 0, 0, 0⟩]

theorem ipcfgRead_eth0 :
    (∀ c ∈ eth0Writes, c.Valid) ∧
      ∃ file, ipcfgWrites (.text .plain) ⟨chars "eth0".toList, by decide, by decide⟩ none eth0Writes = some file ∧
        ∀ af, ipcfgRead (.text .plain) file af = found (Cells.last af eth0Writes) := by
  have hvalid : ∀ c ∈ eth0Writes, c.Valid := by simp [eth0Writes, Config.Valid]
  exact ⟨hvalid, ipcfgRead_ipcfgWrites _ _ hvalid⟩

end NuttxApps.Ipcfg
