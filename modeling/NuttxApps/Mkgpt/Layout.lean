import Mathlib.Data.List.Forall2
import NuttxApps.Framework.Libc

/-!
# Partitions laid out by mkgpt

The position is a number of 64 bits that every partition advances by its size; a size that starts with `0` is what is
left of the disk. `layout` adds up the sizes of the arguments without a limit, and `layout_iff` says for which arguments
the table is good; `add_ptn` lets a partition end where the secondary entries start.
-/

namespace NuttxApps.Mkgpt

open CString Libc List Option

inductive PartitionType
  | uuid
  | efi
  | linux
  | swap
deriving DecidableEq

/-- `struct efi_entry_s`, without the random identifier. -/
structure Entry where
  type : PartitionType
  (firstLba lastLba attr : Nat)
  name : List UInt8
deriving DecidableEq

structure Table where
  sz : Nat
  entries : List Entry
  lba : Nat
deriving DecidableEq

variable (signed : Bool) (files : List UInt8 → Option (List UInt8)) (t : Table)

def Table.lastLba : Nat := (2 ^ 64 - 33 + t.sz) % 2 ^ 64

def addPtn (first last : Nat) (name : List UInt8) (type : PartitionType) : Option Table :=
  if first < 34 then none
  else if t.lastLba < last then none
  else if 128 < t.entries.length then none
  else some { t with entries := t.entries ++ [⟨type, first, last, 2 ^ 63, name.take 36⟩] }

def parseSize (sz : List UInt8) : Nat :=
  let n := strtoull sz
  match sz.getLast? with
  | some 107 | some 75 => n * 1024 % 2 ^ 64
  | some 109 | some 77 => n * (1024 * 1024) % 2 ^ 64
  | some 103 | some 71 => n * (1024 * 1024 * 1024) % 2 ^ 64
  | _ => n

def splitAt (c : UInt8) (s : List UInt8) : List UInt8 × Option (List UInt8) :=
  (s.takeWhile (· ≠ c), (s.dropWhile (· ≠ c)).tail?)

def parseType : Option (List UInt8) → PartitionType
  | none => .uuid
  | some z =>
    if z = chars ['e', 'f', 'i'] then .efi
    else if z = chars ['l', 'i', 'n', 'u', 'x'] then .linux
    else if z = chars ['s', 'w', 'a', 'p'] then .swap
    else .uuid

def ptnSize (y : List UInt8) : Option Nat :=
  let size :=
    if y.head? = some 48 then some ((2 ^ 64 - t.lba + t.lastLba) % 2 ^ 64)
    else if parseSize y % 512 ≠ 0 then none
    else some (parseSize y / 512)
  size.filter (· ≠ 0)

def splitPtn (x : List UInt8) : Option (List UInt8 × List UInt8 × Option (List UInt8)) :=
  match splitAt 58 x with
  | (_, none) => none
  | (name, some y) => some (name, splitAt 61 y)

def parsePtn (x : List UInt8) : Option Table :=
  (splitPtn x).bind fun (name, y, z) => (ptnSize t y).bind fun sz =>
    (if name = [] then some t else addPtn t t.lba ((2 ^ 64 - 1 + (t.lba + sz)) % 2 ^ 64) name (parseType z)).map
      fun t => { t with lba := (t.lba + sz) % 2 ^ 64 }

def blank (c : UInt8) : Bool := c ≤ 32 || signed && 128 ≤ c

def trim (line : List UInt8) : List UInt8 :=
  ((cstr line).reverse.dropWhile (blank signed)).reverse.dropWhile (blank signed)

def fileLines (file : List UInt8) : List (List UInt8) :=
  ((readLines 255 file).map (trim signed)).filter fun p => p.head? ≠ some 35 ∧ p ≠ []

def parseArg (arg : List UInt8) : Option Table :=
  if arg.head? = some 64 then (files arg.tail).bind fun file => (fileLines signed file).foldlM parsePtn t
  else parsePtn t arg

def start (sz : Nat) : Table := ⟨sz, [], 34⟩

def write (stSize : UInt64) (args : List (List UInt8)) : Option Table :=
  if stSize.toNat % 512 ≠ 0 then none else args.foldlM (parseArg signed files) (start (stSize.toNat / 512))

def Apart (a b : Entry) : Prop := a.lastLba < b.firstLba ∨ b.lastLba < a.firstLba

/-- A table with at most 128 entries that overlap neither each other nor the sectors of the tables. -/
structure Table.Good (t : Table) : Prop where
  length_le : t.entries.length ≤ 128
  ordered : ∀ e ∈ t.entries, e.firstLba ≤ e.lastLba
  apart : t.entries.Pairwise Apart
  behind : ∀ e ∈ t.entries, 34 ≤ e.firstLba
  before : ∀ e ∈ t.entries, e.lastLba + 33 < t.sz ∨ t.sz ≤ e.firstLba

def partitions (args : List (List UInt8)) : List (List UInt8) :=
  args.flatMap fun arg => if arg.head? = some 64 then fileLines signed ((files arg.tail).getD []) else [arg]

/-- What an argument or a line asks for: an entry or a gap, and a number of sectors or, for `none`, what is left. -/
structure Ptn where
  named : Bool
  size : Option Nat

def ptnOf (x : List UInt8) : Option Ptn :=
  (splitPtn x).map fun (name, y, _) => ⟨name ≠ [], if y.head? = some 48 then none else some (parseSize y / 512)⟩

def Ptn.sectors (x : Ptn) (lastLba lba : Nat) : Nat := x.size.getD ((2 ^ 64 - lba + lastLba) % 2 ^ 64)

/-- The start and the size of the named partitions from a position on, which is not cut to 64 bits. -/
def layout (lastLba : Nat) : Nat → List Ptn → List (Nat × Nat)
  | _, [] => []
  | pos, x :: xs =>
    let n := x.sectors lastLba (pos % 2 ^ 64)
    (if x.named then [(pos, n)] else []) ++ layout lastLba (pos + n) xs

/-- At most 128 partitions have a name, each of them ends in front of the secondary entries, and it does not overlap one
from which it is separated by a wrap of the position. -/
@[mk_iff fits_def]
structure Fits (sz : Nat) (xs : List Ptn) : Prop where
  length_le : (xs.filter (·.named)).length ≤ 128
  fits : ∀ q ∈ layout (start sz).lastLba 34 xs, q.1 % 2 ^ 64 + q.2 ≤ if 33 ≤ sz then sz - 33 else 2 ^ 64
  apart : (layout (start sz).lastLba 34 xs).Pairwise fun q r => q.1 / 2 ^ 64 ≠ r.1 / 2 ^ 64 →
    q.1 % 2 ^ 64 + q.2 ≤ r.1 % 2 ^ 64 ∨ r.1 % 2 ^ 64 + r.2 ≤ q.1 % 2 ^ 64

instance (sz : Nat) (xs : List Ptn) : Decidable (Fits sz xs) := decidable_of_iff' _ (fits_def sz xs)

variable {signed files} {t t' : Table} {x : List UInt8}

theorem of_addPtn {first last : Nat} {name : List UInt8} {type : PartitionType}
    (h : addPtn t first last name type = some t') :
    34 ≤ first ∧ last ≤ t.lastLba ∧
      t' = { t with entries := t.entries ++ [⟨type, first, last, 2 ^ 63, name.take 36⟩] } := by
  rw [addPtn] at h
  split_ifs at h with hfirst hlast hcount
  exact ⟨Nat.le_of_not_lt hfirst, Nat.le_of_not_lt hlast, (some.inj h).symm⟩

theorem parseSize_lt (y : List UInt8) : parseSize y < 2 ^ 64 := by
  have hull : strtoull y < 2 ^ 64 := by
    rw [strtoull]
    dsimp only
    split_ifs <;> omega
  rw [parseSize]
  split <;> first | exact hull | exact Nat.mod_lt _ (by decide)

theorem of_ptnSize {y : List UInt8} {n : Nat} (named : Bool) (h : ptnSize t y = some n) :
    n = Ptn.sectors ⟨named, if y.head? = some 48 then none else some (parseSize y / 512)⟩ t.lastLba t.lba ∧
      0 < n ∧ n < 2 ^ 64 := by
  obtain ⟨hsize, hne⟩ := filter_eq_some_iff.mp h
  have hlt := parseSize_lt y
  have hpos : 0 < n := Nat.pos_of_ne_zero (by simpa using hne)
  rw [Ptn.sectors]
  split_ifs at hsize ⊢ <;> obtain rfl := some.inj hsize
  · exact ⟨rfl, hpos, Nat.mod_lt _ (by decide)⟩
  · exact ⟨rfl, hpos, by omega⟩

/-- An entry at a place of the layout, which `add_ptn` has accepted. -/
structure At (lastLba : Nat) (q : Nat × Nat) (e : Entry) : Prop where
  pos : 0 < q.2
  lt : q.2 < 2 ^ 64
  first : e.firstLba = q.1 % 2 ^ 64
  last : e.lastLba = (2 ^ 64 - 1 + (q.1 + q.2)) % 2 ^ 64
  behind : 34 ≤ e.firstLba
  le : e.lastLba ≤ lastLba

theorem of_parsePtn {pos : Nat} (hpos : t.lba = pos % 2 ^ 64) (h : parsePtn t x = some t') :
    ∃ ptn, ptnOf x = some ptn ∧ t'.sz = t.sz ∧ t'.lba = (pos + ptn.sectors t.lastLba (pos % 2 ^ 64)) % 2 ^ 64 ∧
      ∃ es, t'.entries = t.entries ++ es ∧
        Forall₂ (At t.lastLba) (if ptn.named then [(pos, ptn.sectors t.lastLba (pos % 2 ^ 64))] else []) es := by
  obtain ⟨⟨name, y, z⟩, hsplit, h⟩ := bind_eq_some_iff.mp h
  obtain ⟨n, hn, h⟩ := bind_eq_some_iff.mp h
  obtain ⟨t₁, hadd, rfl⟩ := map_eq_some_iff.mp h
  obtain ⟨rfl, hn₀, hlt⟩ := of_ptnSize (decide (name ≠ [])) hn
  refine ⟨_, by rw [ptnOf, hsplit, map_some], ?_⟩
  rw [← hpos]
  generalize Ptn.sectors _ t.lastLba t.lba = n at *
  split_ifs at hadd with hname
  · obtain rfl := some.inj hadd
    exact ⟨rfl, by dsimp only; omega, [], (append_nil _).symm, by simp [hname]⟩
  · obtain ⟨hfirst, hlast, rfl⟩ := of_addPtn hadd
    refine ⟨rfl, by dsimp only; omega, _, rfl, ?_⟩
    simpa [hname] using At.mk hn₀ hlt hpos (by dsimp only; omega) hfirst hlast

theorem foldlM_parsePtn {pos : Nat} {xs : List (List UInt8)} (hpos : t.lba = pos % 2 ^ 64)
    (h : xs.foldlM parsePtn t = some t') :
    t'.sz = t.sz ∧ ∃ es, t'.entries = t.entries ++ es ∧
      Forall₂ (At t.lastLba) (layout t.lastLba pos (xs.filterMap ptnOf)) es := by
  induction xs generalizing t pos with
  | nil =>
    obtain rfl := some.inj h
    exact ⟨rfl, [], (append_nil _).symm, .nil⟩
  | cons x xs ih =>
    obtain ⟨t₁, hx, hxs⟩ := bind_eq_some_iff.mp h
    obtain ⟨ptn, hptn, hsz, hlba, es, hes, hat⟩ := of_parsePtn hpos hx
    obtain ⟨hsz', es', hes', hat'⟩ := ih hlba hxs
    have hlast : t₁.lastLba = t.lastLba := by rw [Table.lastLba, Table.lastLba, hsz]
    rw [hlast] at hat'
    refine ⟨hsz'.trans hsz, es ++ es', by rw [hes', hes, append_assoc], ?_⟩
    rw [filterMap_cons_some hptn, layout]
    exact rel_append hat hat'

theorem foldlM_parseArg {args : List (List UInt8)} (h : args.foldlM (parseArg signed files) t = some t') :
    (partitions signed files args).foldlM parsePtn t = some t' := by
  induction args generalizing t with
  | nil => exact h
  | cons arg args ih =>
    obtain ⟨t₁, harg, hargs⟩ := bind_eq_some_iff.mp h
    rw [partitions, flatMap_cons, foldlM_append]
    refine bind_eq_some_iff.mpr ⟨t₁, ?_, ih hargs⟩
    rw [parseArg] at harg
    split_ifs at harg ⊢ with hfile
    · obtain ⟨file, hopen, harg⟩ := bind_eq_some_iff.mp harg
      rwa [hopen, getD_some]
    · simpa using harg

theorem length_layout (lastLba pos : Nat) (xs : List Ptn) :
    (layout lastLba pos xs).length = (xs.filter (·.named)).length := by
  induction xs generalizing pos with
  | nil => rfl
  | cons x xs ih =>
    rw [layout, length_append, ih, filter_cons]
    split <;> simp [Nat.add_comm]

theorem layout_sorted (lastLba pos : Nat) (xs : List Ptn) :
    (∀ q ∈ layout lastLba pos xs, pos ≤ q.1) ∧ (layout lastLba pos xs).Pairwise fun q r => q.1 + q.2 ≤ r.1 := by
  induction xs generalizing pos with
  | nil => exact ⟨nofun, .nil⟩
  | cons x xs ih =>
    rw [layout]
    generalize x.sectors lastLba (pos % 2 ^ 64) = n
    obtain ⟨hle, hsorted⟩ := ih (pos + n)
    have hle' : ∀ q ∈ layout lastLba (pos + n) xs, pos ≤ q.1 := fun q hq => Nat.le_of_add_right_le (hle q hq)
    split
    · exact ⟨forall_mem_cons.mpr ⟨Nat.le_refl _, hle'⟩, pairwise_cons.mpr ⟨hle, hsorted⟩⟩
    · exact ⟨hle', hsorted⟩

section

variable {sz : Nat} {q r : Nat × Nat} {e f : Entry} (he : At (start sz).lastLba q e) (hf : At (start sz).lastLba r f)

include he

/-- An entry is in order and clear of the secondary table just if its place is. -/
theorem At.clear_iff (hsz : sz < 2 ^ 64) :
    e.firstLba ≤ e.lastLba ∧ (e.lastLba + 33 < sz ∨ sz ≤ e.firstLba) ↔
      q.1 % 2 ^ 64 + q.2 ≤ if 33 ≤ sz then sz - 33 else 2 ^ 64 := by
  obtain ⟨hpos, hlt, hfirst, hlast, hbehind, hle⟩ := he
  have hdisk : (start sz).lastLba = (2 ^ 64 - 33 + sz) % 2 ^ 64 := rfl
  split <;> omega

theorem At.last_eq (hfits : q.1 % 2 ^ 64 + q.2 ≤ 2 ^ 64) : e.lastLba + 1 = q.1 % 2 ^ 64 + q.2 := by
  obtain ⟨hpos, hlt, hfirst, hlast, hbehind, hle⟩ := he
  omega

include hf

theorem At.apart_iff (hq : q.1 % 2 ^ 64 + q.2 ≤ 2 ^ 64) (hr : r.1 % 2 ^ 64 + r.2 ≤ 2 ^ 64) (hle : q.1 + q.2 ≤ r.1) :
    Apart e f ↔ q.1 / 2 ^ 64 ≠ r.1 / 2 ^ 64 →
      q.1 % 2 ^ 64 + q.2 ≤ r.1 % 2 ^ 64 ∨ r.1 % 2 ^ 64 + r.2 ≤ q.1 % 2 ^ 64 := by
  have := he.last_eq hq
  have := hf.last_eq hr
  rw [Apart, he.first, hf.first]
  omega

end

/-- The table that is written is good exactly if the arguments fit. -/
theorem layout_iff {stSize : UInt64} {args : List (List UInt8)} (h : write signed files stSize args = some t) :
    t.Good ↔ Fits (stSize.toNat / 512) ((partitions signed files args).filterMap ptnOf) := by
  rw [write] at h
  split_ifs at h with hmultiple
  have hsz : stSize.toNat / 512 < 2 ^ 64 := by
    have := stSize.toNat_lt
    omega
  generalize stSize.toNat / 512 = sz at h hsz
  generalize hxs : (partitions signed files args).filterMap ptnOf = xs
  obtain ⟨hdisk, es, hes, hat⟩ := foldlM_parsePtn (show _ = 34 % 2 ^ 64 from rfl) (foldlM_parseArg h)
  rw [hxs] at hat
  obtain rfl : t.entries = es := hes
  replace hdisk : t.sz = sz := hdisk
  obtain ⟨hlen, hget⟩ := forall₂_iff_get.mp hat
  have hsorted := pairwise_iff_getElem.mp (layout_sorted (start sz).lastLba 34 xs).2
  have hfits : (∀ e ∈ t.entries, e.firstLba ≤ e.lastLba ∧ (e.lastLba + 33 < sz ∨ sz ≤ e.firstLba)) ↔
      ∀ q ∈ layout (start sz).lastLba 34 xs, q.1 % 2 ^ 64 + q.2 ≤ if 33 ≤ sz then sz - 33 else 2 ^ 64 := by
    simp only [forall_mem_iff_getElem]
    exact ⟨fun h i hi => ((hget i hi (hlen ▸ hi)).clear_iff hsz).mp (h i (hlen ▸ hi)),
      fun h i hi => ((hget i (hlen ▸ hi) hi).clear_iff hsz).mpr (h i (hlen ▸ hi))⟩
  have hbound : ∀ q ∈ layout (start sz).lastLba 34 xs, (q.1 % 2 ^ 64 + q.2 ≤ if 33 ≤ sz then sz - 33 else 2 ^ 64) →
      q.1 % 2 ^ 64 + q.2 ≤ 2 ^ 64 := by
    intro q _ hq
    split at hq <;> omega
  constructor
  · intro hgood
    have hall := hfits.mp fun e he => ⟨hgood.ordered e he, hdisk ▸ hgood.before e he⟩
    refine ⟨?_, hall, pairwise_iff_getElem.mpr fun i j hi hj hij => ?_⟩
    · rw [← length_layout (start sz).lastLba 34, hlen]
      exact hgood.length_le
    · have hapart := pairwise_iff_getElem.mp hgood.apart i j (hlen ▸ hi) (hlen ▸ hj) hij
      exact ((hget i hi (hlen ▸ hi)).apart_iff (hget j hj (hlen ▸ hj))
        (hbound _ (getElem_mem hi) (hall _ (getElem_mem hi))) (hbound _ (getElem_mem hj) (hall _ (getElem_mem hj)))
        (hsorted i j hi hj hij)).mp hapart
  · intro hright
    have hall := hfits.mpr hright.fits
    refine ⟨?_, fun e he => (hall e he).1, pairwise_iff_getElem.mpr fun i j hi hj hij => ?_,
      forall_mem_iff_getElem.mpr fun i hi => (hget i (hlen ▸ hi) hi).behind, fun e he => hdisk ▸ (hall e he).2⟩
    · rw [← hlen, length_layout]
      exact hright.length_le
    · have hi' : i < (layout (start sz).lastLba 34 xs).length := hlen ▸ hi
      have hj' : j < (layout (start sz).lastLba 34 xs).length := hlen ▸ hj
      have hapart := pairwise_iff_getElem.mp hright.apart i j hi' hj' hij
      exact ((hget i hi' hi).apart_iff (hget j hj' hj) (hbound _ (getElem_mem hi') (hright.fits _ (getElem_mem hi')))
        (hbound _ (getElem_mem hj') (hright.fits _ (getElem_mem hj'))) (hsorted i j hi' hj' hij)).mpr hapart

def noFiles (_ : List UInt8) : Option (List UInt8) := none

def gapAndTwo : List (List UInt8) :=
  [chars [':', '3', '0', 'k'], chars ['a', ':', '6', '4', 'k', '=', 'e', 'f', 'i'], chars ['b', ':', '0']]

theorem write_gapAndTwo :
    write false noFiles 1048576 gapAndTwo =
      some ⟨2048, [⟨.efi, 94, 221, 2 ^ 63, [97]⟩, ⟨.uuid, 222, 2014, 2 ^ 63, [98]⟩], 2015⟩ := by
  decide +kernel

theorem layout_gapAndTwo : Table.Good ⟨2048, [⟨.efi, 94, 221, 2 ^ 63, [97]⟩, ⟨.uuid, 222, 2014, 2 ^ 63, [98]⟩], 2015⟩ :=
  (layout_iff write_gapAndTwo).mpr (by decide +kernel)

def gapAndRest : List (List UInt8) := [chars [':', '1', 'm'], chars ['a', ':', '0']]

/-- An entry ends before it starts, one ends where the secondary entries start, and there are 129. -/
theorem bad_tables_written :
    (∃ t, write false noFiles 51200 gapAndRest = some t ∧ t.entries = [⟨.uuid, 2082, 66, 2 ^ 63, [97]⟩] ∧ ¬ t.Good) ∧
      (∃ t, write false noFiles 51200 [chars ['a', ':', '1', '7', 'k']] = some t ∧
        t.entries = [⟨.uuid, 34, 67, 2 ^ 63, [97]⟩] ∧ t.sz = 100 ∧ ¬ t.Good) ∧
      ∃ t, write false noFiles 1048576 (List.replicate 129 (chars ['a', ':', '1', 'k'])) = some t ∧
        t.entries.length = 129 ∧ ¬ t.Good := by
  refine ⟨⟨⟨100, [⟨.uuid, 2082, 66, 2 ^ 63, [97]⟩], 67⟩, by decide +kernel, rfl, fun h => ?_⟩,
    ⟨⟨100, [⟨.uuid, 34, 67, 2 ^ 63, [97]⟩], 68⟩, by decide +kernel, rfl, rfl, fun h => ?_⟩,
    ⟨⟨2048, (List.range 129).map fun n => ⟨.uuid, 34 + 2 * n, 35 + 2 * n, 2 ^ 63, [97]⟩, 292⟩, by decide +kernel,
      length_map .., fun h => absurd h.length_le ?_⟩⟩
  · exact absurd (h.ordered _ mem_cons_self) (by decide)
  · exact absurd (h.before _ mem_cons_self) (by decide)
  · decide +kernel

end NuttxApps.Mkgpt
