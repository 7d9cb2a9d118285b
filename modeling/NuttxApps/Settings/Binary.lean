import NuttxApps.Framework.Bytes
import NuttxApps.Framework.Crc
import NuttxApps.Settings.Store
import Mathlib.Data.List.Forall2

/-!
# The binary storage

`save_bin` sends a header, the used entries and their CRC-32 through one buffer of 256 bytes, with three counters for
what is still to come (`State.todo`, `step_todo`). `load_bin` reads the entries twice: once for the CRC and once to put
them into the map, each where a lookup of its key stops. `binary_roundTrip_iff` needs fewer than 65536 used entries with
different keys.
-/

namespace NuttxApps.Settings

open Bytes Crc Scan
open List hiding le min

/-- The memory layout of `setting_t`: its size, and what its bytes mean. -/
structure Layout (F : Type) where
  size : Nat
  view : List UInt8 → Setting F
  view_zero : view (replicate size 0) = blank

def valid : Nat := 0x600d

structure SaveState where
  buffer : List UInt8
  (offset remData remCrc : Nat)
  file : List UInt8

def crcByte (crc : UInt32) (k : Nat) : UInt8 := ((crc >>> UInt32.ofNat (8 * k)) &&& 0xff).toUInt8

/-- The inner loop of `save_bin`, from `rem_crc` and `j`: as much of the CRC as fits the buffer. -/
def putCrc (crc : UInt32) : Nat → Nat → List UInt8 → List UInt8 × Nat
  | 0, _, buffer => (buffer, 0)
  | rem + 1, j, buffer =>
    if j < 256 then putCrc crc rem (j + 1) (buffer.set j (crcByte crc (4 - (rem + 1))))
    else (buffer, rem + 1)

def saveStep (data : List UInt8) (crc : UInt32) (st : SaveState) : SaveState :=
  let toWrite := if st.offset + st.remData > 256 then 256 - st.offset else st.remData
  let buffer := splice st.buffer st.offset ((data.drop (data.length - st.remData)).take toWrite)
  let (buffer, remCrc) := putCrc crc st.remCrc (toWrite + st.offset) buffer
  ⟨buffer, 0, st.remData - toWrite, remCrc, st.file ++ buffer⟩

/-- The buffer with `VALID` and the count, as 16 bits each, before the first round. -/
def startBuffer (count : Nat) : List UInt8 :=
  splice (replicate 256 0xff) 0 (leBytes 2 valid ++ leBytes 2 count)

/-- The loop of `save_bin`; `none` where it is still running after `fuel` rounds. -/
def saveLoop (data : List UInt8) (crc : UInt32) : Nat → SaveState → Option SaveState
  | 0, _ => none
  | fuel + 1, st =>
    if st.offset + st.remData + st.remCrc > 0 then saveLoop data crc fuel (saveStep data crc st)
    else some st

section

variable {F : Type} (L : Layout F)

def usedCount (map : List (List UInt8)) : Nat := (map.takeWhile fun b => (L.view b).used).length

/-- The file `save_bin` writes; `none` where its loop is still running after `fuel` rounds. -/
def saveBin (fuel : Nat) (map : List (List UInt8)) : Option (List UInt8) :=
  let count := usedCount L map
  let data := map.flatten.take (count * L.size)
  (saveLoop data (crc32part data 0) fuel ⟨startBuffer count, 4, data.length, 4, []⟩).map SaveState.file

/-- `read` into a variable: at the end of the file its last bytes stay as they are. -/
def readInto (buf file : List UInt8) : List UInt8 × List UInt8 :=
  (file.take buf.length ++ buf.drop file.length, file.drop buf.length)

/-- The first loop of `load_bin`: the variable, the rest of the file and the CRC behind `n` reads. -/
def crcEntries : Nat → List UInt8 → List UInt8 → UInt32 → List UInt8 × List UInt8 × UInt32
  | 0, s, f, crc => (s, f, crc)
  | n + 1, s, f, crc =>
    crcEntries n (readInto s f).1 (readInto s f).2 (crc32part (readInto s f).1 crc)

def putEntry (s : List UInt8) (map : List (List UInt8)) : List (List UInt8) :=
  match scan (fun b => (L.view b).key == (L.view s).key || !(L.view b).used) map with
  | none => map
  | some (a, _, b) => a ++ s :: b

def putEntries : Nat → List UInt8 → List UInt8 → List (List UInt8) → List (List UInt8)
  | 0, _, _, map => map
  | n + 1, s, f, map => putEntries n (readInto s f).1 (readInto s f).2 (putEntry L (readInto s f).1 map)

/-- `load_bin`; `junk` is the variable `setting` before it is first read into. -/
def loadBin (junk file : List UInt8) (map : List (List UInt8)) : Except Errno Unit × List (List UInt8) :=
  let (v, f) := readInto [0, 0] file
  if le v ≠ valid then (.error .ebadmsg, map)
  else
    let (c, f) := readInto [0, 0] f
    let (s, g, crc) := crcEntries (le c) junk f 0
    if crc.toNat ≠ le (readInto [0, 0, 0, 0] g).1 then (.error .ebadmsg, map)
    else (.ok (), putEntries L (le c) s f map)

end

def crcBytes (crc : UInt32) : List UInt8 := (range 4).map (crcByte crc)

variable (data : List UInt8) (count : Nat) {p : List UInt8} {j : Nat} (crc : UInt32)

theorem le_crcBytes : le (crcBytes crc) = crc.toNat := by
  have hb : ∀ k < 4, (crcByte crc k).toNat = crc.toNat / 2 ^ (8 * k) % 256 := by
    intro k hk
    have hk' : (UInt32.ofNat (8 * k)).toNat % 32 = 8 * k := by
      rw [UInt32.toNat_ofNat', Nat.mod_eq_of_lt (a := 8 * k) (by omega)]
      omega
    have hand : ∀ n : Nat, n &&& 255 = n % 256 := fun n => Nat.and_two_pow_sub_one_eq_mod n 8
    rw [crcByte, UInt32.toNat_toUInt8, UInt32.toNat_and, UInt32.toNat_shiftRight, hk', Nat.shiftRight_eq_div_pow]
    change (_ &&& 255) % 2 ^ 8 = _
    rw [hand]
    omega
  have := crc.toNat_lt
  simp only [crcBytes, range, range.loop, map_cons, map_nil, le]
  rw [hb 0 (by decide), hb 1 (by decide), hb 2 (by decide), hb 3 (by decide)]
  omega

theorem splice_cons (hj : j < p.length) (x : UInt8) (d : List UInt8) :
    splice p j (x :: d) = splice (p.set j x) (j + 1) d := by
  refine ext_getElem? fun i => ?_
  simp only [getElem?_splice, length_cons, length_set, getElem?_set]
  by_cases hi : i = j
  · subst hi
    rw [if_pos (by omega), if_neg (by omega), if_pos rfl, if_pos hj, Nat.sub_self]
    rfl
  · rw [if_neg (Ne.symm hi)]
    by_cases h : j + 1 ≤ i ∧ i < j + 1 + d.length ∧ i < p.length
    · rw [if_pos h, if_pos (by omega), show i - j = (i - (j + 1)) + 1 by omega, getElem?_cons_succ]
    · rw [if_neg h, if_neg (by omega)]

theorem splice_of_le (hj : p.length ≤ j) (d : List UInt8) : splice p j d = p := by
  rw [splice, take_of_length_le hj, show p.length - j = 0 by omega, drop_of_length_le (by omega)]
  simp

theorem putCrc_eq {rem : Nat} (hrem : rem ≤ 4) {j : Nat} {buffer : List UInt8}
    (hb : buffer.length = 256) :
    putCrc crc rem j buffer =
      (splice buffer j ((crcBytes crc).drop (4 - rem)), rem - (256 - j)) := by
  have hlen : (crcBytes crc).length = 4 := by simp [crcBytes]
  induction rem generalizing j buffer with
  | zero => simp [putCrc, drop_of_length_le, hlen, splice]
  | succ rem ih =>
    have hdrop : (crcBytes crc).drop (4 - (rem + 1)) =
        crcByte crc (4 - (rem + 1)) :: (crcBytes crc).drop (4 - rem) := by
      rw [drop_eq_getElem_cons (by omega), show 4 - (rem + 1) + 1 = 4 - rem by omega]
      simp [crcBytes]
    rw [putCrc]
    split_ifs with hj
    · rw [ih (by omega) (by simpa using hb), hdrop, splice_cons (by omega), Prod.mk.injEq]
      exact ⟨rfl, by omega⟩
    · rw [splice_of_le (by omega), Prod.mk.injEq]
      exact ⟨rfl, by omega⟩

def SaveState.todo (st : SaveState) : List UInt8 :=
  st.buffer.take st.offset ++ (data.drop (data.length - st.remData) ++ (crcBytes crc).drop (4 - st.remCrc))

structure SaveState.Ok (data : List UInt8) (st : SaveState) : Prop where
  buffer : st.buffer.length = 256
  offset : st.offset ≤ 256
  remData : st.remData ≤ data.length
  remCrc : st.remCrc ≤ 4

section

variable {data : List UInt8} {crc : UInt32} {st : SaveState}

theorem SaveState.Ok.length_todo (crc : UInt32) (h : st.Ok data) :
    (st.todo data crc).length = st.offset + st.remData + st.remCrc := by
  obtain ⟨hb, ho, hd, hc⟩ := h
  simp only [SaveState.todo, crcBytes, length_append, length_take, length_drop, length_map, length_range]
  omega

theorem drop_block {buffer D C : List UInt8} {offset w : Nat} (hb : buffer.length = 256) (ho : offset + w ≤ 256)
    (hle : w ≤ D.length) (hw : w = D.length ∨ offset + w = 256) :
    (buffer.take offset ++ (D ++ C)).drop 256 = D.drop w ++ C.drop (256 - (w + offset)) := by
  have hhead : (buffer.take offset).drop 256 = [] :=
    drop_of_length_le (by rw [length_take]; omega)
  have hmin : min offset buffer.length = offset := by omega
  rw [drop_append, length_take, hmin, drop_append, hhead, nil_append]
  rcases hw with h | h
  · rw [drop_of_length_le (l := D) (show D.length ≤ w by omega),
      drop_of_length_le (l := D) (show D.length ≤ 256 - offset by omega),
      show 256 - (w + offset) = 256 - offset - D.length by omega]
  · rw [show 256 - offset = w by omega, show 256 - (w + offset) = w - D.length by omega]

theorem saveStep_spec (crc : UInt32) (h : st.Ok data) :
    (saveStep data crc st).Ok data ∧
      (saveStep data crc st).todo data crc = (st.todo data crc).drop 256 ∧
      ∃ block : List UInt8, (saveStep data crc st).file = st.file ++ block ∧ block.length = 256 ∧
        ∀ i < 256, i < (st.todo data crc).length → block[i]? = (st.todo data crc)[i]? := by
  obtain ⟨hb, ho, hd, hc⟩ := h
  obtain ⟨buffer, offset, remData, remCrc, file⟩ := st
  simp only at hb ho hd hc
  simp only [saveStep, SaveState.todo]
  generalize hw : (if offset + remData > 256 then 256 - offset else remData) = w
  have hw₁ : w ≤ remData ∧ offset + w ≤ 256 ∧ (w = remData ∨ offset + w = 256) := by
    subst hw
    split <;> omega
  have hD : (data.drop (data.length - remData)).length = remData := by
    rw [length_drop]
    omega
  have hC : ((crcBytes crc).drop (4 - remCrc)).length = remCrc := by
    simp only [crcBytes, length_drop, length_map, length_range]
    omega
  have hdrop : data.drop (data.length - (remData - w)) = (data.drop (data.length - remData)).drop w := by
    rw [drop_drop]
    congr 1
    omega
  have hcrc : (crcBytes crc).drop (4 - (remCrc - (256 - (w + offset)))) =
      ((crcBytes crc).drop (4 - remCrc)).drop (256 - (w + offset)) := by
    have hlen : (crcBytes crc).length = 4 := by simp [crcBytes]
    rw [drop_drop]
    rcases lt_or_ge (256 - (w + offset)) remCrc with h | h
    · congr 1
      omega
    · rw [drop_of_length_le (by omega), drop_of_length_le (by omega)]
  rw [putCrc_eq crc hc (by simpa using hb)]
  simp only [hdrop, hcrc]
  generalize data.drop (data.length - remData) = D at hD
  generalize (crcBytes crc).drop (4 - remCrc) = C at hC
  refine ⟨⟨by simpa using hb, by simp, by simp only; omega, by simp only; omega⟩, ?_, _, rfl,
    by simpa using hb, ?_⟩
  · exact (drop_block hb (by omega) (by omega) (by omega)).symm
  · intro i hi hlen
    simp only [length_append, length_take] at hlen
    simp only [getElem?_splice, length_splice, length_take]
    rw [getElem?_append, getElem?_append, length_take]
    rcases lt_or_ge i offset with h₁ | h₁
    · rw [if_neg (by omega), if_neg (by omega), if_pos (by omega), getElem?_take_of_lt h₁]
    · rw [if_neg (show ¬ i < min offset buffer.length by omega)]
      rcases lt_or_ge i (w + offset) with h₂ | h₂
      · rw [if_neg (by omega), if_pos (by omega), if_pos (by omega), getElem?_take_of_lt (by omega)]
        congr 1
        omega
      · rw [if_pos (by omega), if_neg (by omega)]
        congr 1
        omega

theorem saveLoop_isSome (crc : UInt32) (h : st.Ok data) : ∃ fuel, (saveLoop data crc fuel st).isSome := by
  generalize hn : (st.todo data crc).length = n
  induction n using Nat.strongRecOn generalizing st with
  | ind n ih =>
    by_cases hpos : st.offset + st.remData + st.remCrc > 0
    · obtain ⟨hok, htodo, -⟩ := saveStep_spec crc h
      have hlen := h.length_todo crc
      obtain ⟨fuel, hfuel⟩ := ih (n - 256) (by omega) hok (by rw [htodo, length_drop, hn])
      exact ⟨fuel + 1, by rwa [saveLoop, if_pos hpos]⟩
    · exact ⟨1, by rw [saveLoop, if_neg hpos]; rfl⟩

theorem saveLoop_eq {fuel : Nat} {st' : SaveState} (h : st.Ok data) (hrun : saveLoop data crc fuel st = some st') :
    ∃ pad, st'.file = st.file ++ (st.todo data crc ++ pad) := by
  induction fuel generalizing st with
  | zero => cases hrun
  | succ fuel ih =>
    rw [saveLoop] at hrun
    split_ifs at hrun with hpos
    · obtain ⟨hok, htodo, block, hfile, hblock, hbytes⟩ := saveStep_spec crc h
      obtain ⟨pad, hpad⟩ := ih hok hrun
      rw [hfile, htodo] at hpad
      generalize st.todo data crc = t at *
      have hsplit : block = t.take 256 ++ block.drop t.length := by
        refine ext_getElem? fun i => ?_
        rw [getElem?_append, length_take, getElem?_drop]
        split
        · rw [getElem?_take_of_lt (by omega), hbytes i (by omega) (by omega)]
        · rcases lt_or_ge i 256 with hi | hi
          · congr 1
            omega
          · rw [getElem?_eq_none (by omega), getElem?_eq_none (by omega)]
      rcases lt_or_ge t.length 256 with hlt | hge
      · refine ⟨block.drop t.length ++ pad, ?_⟩
        rw [hpad, drop_of_length_le (by omega), nil_append, append_assoc]
        conv => lhs; rw [hsplit]
        rw [take_of_length_le (by omega)]
        simp
      · refine ⟨pad, ?_⟩
        rw [hpad, hsplit, drop_of_length_le (by omega), append_nil, append_assoc,
          ← append_assoc (t.take 256), take_append_drop]
    · cases hrun
      have hnil : st'.todo data crc = [] := by
        rw [← length_eq_zero_iff, h.length_todo]
        omega
      exact ⟨[], by simp [hnil]⟩

end

variable (n : Nat)

section

variable {F : Type} {L : Layout F} {map : List (List UInt8)}

theorem length_flatten_of_forall {k : Nat} {u : List (List UInt8)} (hu : ∀ b ∈ u, b.length = k) :
    u.flatten.length = u.length * k := by
  rw [length_flatten, map_congr_left hu, map_const', sum_replicate_nat]

def usedEntries (L : Layout F) (map : List (List UInt8)) : List (List UInt8) :=
  map.takeWhile fun b => (L.view b).used

theorem length_usedEntries : (usedEntries L map).length = usedCount L map := rfl

theorem used_of_mem_usedEntries {b : List UInt8} (h : b ∈ usedEntries L map) : (L.view b).used :=
  mem_takeWhile_imp (p := fun b => (L.view b).used) h

theorem mem_of_mem_usedEntries {b : List UInt8} (h : b ∈ usedEntries L map) : b ∈ map :=
  ( takeWhile_prefix _).subset h

theorem take_flatten (hsize : ∀ b ∈ map, b.length = L.size) :
    map.flatten.take (usedCount L map * L.size) = (usedEntries L map).flatten := by
  have hu : ∀ b ∈ usedEntries L map, b.length = L.size := fun b hb => hsize b (mem_of_mem_usedEntries hb)
  have hsplit : map.flatten = (usedEntries L map).flatten ++
      (map.dropWhile fun b => (L.view b).used).flatten := by
    rw [← flatten_append, usedEntries, takeWhile_append_dropWhile]
  rw [hsplit, ← length_usedEntries, ← length_flatten_of_forall hu, take_left']
  rfl

theorem take_startBuffer : (startBuffer count).take 4 = leBytes 2 valid ++ leBytes 2 count := by
  have hlen : (leBytes 2 valid ++ leBytes 2 count).length = 4 := by
    rw [length_append, length_leBytes, length_leBytes]
  rw [startBuffer]
  generalize leBytes 2 valid ++ leBytes 2 count = d at hlen
  rw [splice, take_zero, nil_append, length_replicate, take_of_length_le (l := d) (by omega), take_left' hlen]

theorem start_ok : SaveState.Ok data ⟨startBuffer count, 4, data.length, 4, []⟩ :=
  ⟨by simp only [startBuffer, length_splice, length_replicate], by simp, by simp, by simp⟩

theorem saveBin_isSome (L : Layout F) (map : List (List UInt8)) : ∃ fuel, (saveBin L fuel map).isSome := by
  obtain ⟨fuel, h⟩ := saveLoop_isSome (crc32part (map.flatten.take (usedCount L map * L.size)) 0)
    (start_ok (map.flatten.take (usedCount L map * L.size)) (usedCount L map))
  exact ⟨fuel, by rwa [saveBin, Option.isSome_map]⟩

theorem saveBin_eq {fuel : Nat} {file : List UInt8} (hsize : ∀ b ∈ map, b.length = L.size)
    (h : saveBin L fuel map = some file) :
    ∃ pad, file = leBytes 2 valid ++ (leBytes 2 (usedCount L map) ++ ((usedEntries L map).flatten ++
      (crcBytes (crc32part (usedEntries L map).flatten 0) ++ pad))) := by
  simp only [saveBin, take_flatten hsize, Option.map_eq_some_iff] at h
  obtain ⟨st, hst, rfl⟩ := h
  obtain ⟨pad, hpad⟩ := saveLoop_eq (start_ok _ _) hst
  refine ⟨pad, ?_⟩
  have hcrc : (crcBytes (crc32part (usedEntries L map).flatten 0)).drop (4 - 4) =
      crcBytes (crc32part (usedEntries L map).flatten 0) := rfl
  rw [hpad, SaveState.todo, take_startBuffer, Nat.sub_self, drop_zero, hcrc]
  simp only [nil_append, append_assoc]

theorem readInto_append {s e : List UInt8} (h : e.length = s.length) (rest : List UInt8) :
    readInto s (e ++ rest) = (e, rest) := by
  rw [readInto, take_left' h, drop_left' h, drop_of_length_le, append_nil]
  rw [length_append]
  omega

section

variable {u : List (List UInt8)} {k n : Nat} {s : List UInt8} (hu : ∀ b ∈ u, b.length = k) (hs : s.length = k)
  (hn : n ≤ u.length) (rest : List UInt8)

include hu hs hn

theorem crcEntries_eq (c : UInt32) :
    ∃ s', s'.length = k ∧ crcEntries n s (u.flatten ++ rest) c =
      (s', (u.drop n).flatten ++ rest, crc32part (u.take n).flatten c) := by
  induction n generalizing u s c with
  | zero => exact ⟨s, hs, rfl⟩
  | succ n ih =>
    obtain ⟨b, u, rfl⟩ := exists_cons_of_ne_nil (l := u) (by rintro rfl; simp at hn)
    obtain ⟨hb, hu⟩ := forall_mem_cons.mp hu
    rw [crcEntries, flatten_cons, append_assoc, readInto_append (by omega)]
    obtain ⟨s', hs', h⟩ := ih hu hb (by simpa using hn) (crc32part b c)
    exact ⟨s', hs', by rw [h]; simp [crc32part_append]⟩

theorem putEntries_eq (map : List (List UInt8)) :
    putEntries L n s (u.flatten ++ rest) map =
      (u.take n).foldl (fun map e => putEntry L e map) map := by
  induction n generalizing u s map with
  | zero => rfl
  | succ n ih =>
    obtain ⟨b, u, rfl⟩ := exists_cons_of_ne_nil (l := u) (by rintro rfl; simp at hn)
    obtain ⟨hb, hu⟩ := forall_mem_cons.mp hu
    rw [putEntries, flatten_cons, append_assoc, readInto_append (by omega), ih hu hb (by simpa using hn)]
    rfl

end

theorem le_leBytes_two : le (leBytes 2 n) = n % 65536 := by
  simp only [leBytes, le, UInt8.toNat_ofNat']
  omega

/-- `load_bin` loads as many of the saved entries as the 16 bits of the count say, unless it finds the CRC to be wrong.
With fewer than 65536 entries it does not. -/
theorem loadBin_saved {fuel : Nat} {file junk : List UInt8} (map' : List (List UInt8))
    (hsize : ∀ b ∈ map, b.length = L.size) (hjunk : junk.length = L.size) (h : saveBin L fuel map = some file) :
    loadBin L junk file map' = (.error .ebadmsg, map') ∧ 65536 ≤ usedCount L map ∨
      loadBin L junk file map' = (.ok (), ((usedEntries L map).take (usedCount L map % 65536)).foldl
        (fun map e => putEntry L e map) map') := by
  obtain ⟨pad, rfl⟩ := saveBin_eq hsize h
  have hu : ∀ b ∈ usedEntries L map, b.length = L.size := fun b hb => hsize b (mem_of_mem_usedEntries hb)
  have hn : usedCount L map % 65536 ≤ (usedEntries L map).length := Nat.mod_le _ _
  obtain ⟨s, hs, hcrc⟩ := crcEntries_eq hu hjunk hn (crcBytes (crc32part (usedEntries L map).flatten 0) ++ pad) 0
  have hvalid : le (leBytes 2 valid) = valid := rfl
  simp only [loadBin, readInto_append (show (leBytes 2 valid).length = ([0, 0] : List UInt8).length from rfl),
    readInto_append (show (leBytes 2 (usedCount L map)).length = ([0, 0] : List UInt8).length from rfl),
    hvalid, ne_eq, not_true_eq_false, if_false, le_leBytes_two, hcrc, putEntries_eq hu hs hn]
  rcases lt_or_ge (usedCount L map) 65536 with hlt | hge
  · -- the whole of the data is read, so the next four bytes are its CRC
    right
    rw [Nat.mod_eq_of_lt hlt, ← length_usedEntries, take_length, drop_length, flatten_nil,
      nil_append, readInto_append (by simp [crcBytes]), le_crcBytes, if_neg (by simp)]
  · split
    · exact .inl ⟨rfl, hge⟩
    · exact .inr rfl

theorem map_putEntry (s : List UInt8) (map : List (List UInt8)) :
    (putEntry L s map).map L.view =
      match lookup (L.view s).key (map.map L.view) with
      | none => map.map L.view
      | some (a, _, b) => a ++ L.view s :: b := by
  rw [lookup, scan_map, putEntry]
  cases scan (fun b => (L.view b).key == (L.view s).key || !(L.view b).used) map with
  | none => rfl
  | some x => simp

theorem packed_putEntries {u map : List (List UInt8)} (hu : ∀ b ∈ u, (L.view b).used) (h : Packed (map.map L.view)) :
    Packed ((u.foldl (fun map e => putEntry L e map) map).map L.view) := by
  induction u generalizing map with
  | nil => exact h
  | cons s u ih =>
    obtain ⟨hs, hu⟩ := forall_mem_cons.mp hu
    refine ih hu ?_
    rw [map_putEntry]
    split
    · exact h
    · rename_i hl
      exact packed_replace h hl (fun _ => hs) fun _ => rfl

def zeroMap (L : Layout F) (n : Nat) : List (List UInt8) :=
  replicate n (replicate L.size 0)

theorem packed_zeroMap (n : Nat) : Packed ((zeroMap L n).map L.view) := by
  rw [zeroMap, map_replicate, L.view_zero]
  exact packed_blankMap ⟨n, 0, 0⟩

def DistinctKeys (L : Layout F) (u : List (List UInt8)) : Prop :=
  u.Pairwise fun x y => (L.view x).key ≠ (L.view y).key

theorem foldl_putEntry {u : List (List UInt8)} (done : List (List UInt8)) {n : Nat}
    (hused : ∀ b ∈ done ++ u, (L.view b).used) (hk : DistinctKeys L (done ++ u)) (hn : u.length ≤ n) :
    u.foldl (fun map e => putEntry L e map) (done ++ zeroMap L n) =
      done ++ u ++ zeroMap L (n - u.length) := by
  induction u generalizing done n with
  | nil => simp
  | cons s u ih =>
    obtain ⟨n, rfl⟩ : ∃ n', n = n' + 1 := ⟨n - 1, by rw [length_cons] at hn; omega⟩
    have hscan : scan (fun b => (L.view b).key == (L.view s).key || !(L.view b).used)
        (done ++ zeroMap L (n + 1)) = some (done, replicate L.size 0, zeroMap L n) := by
      refine scan_append (fun y hy => ?_) (by simp [L.view_zero])
      have hne := (pairwise_append.mp hk).2.2 y hy s (by simp)
      simpa [hne] using hused y (by simp [hy])
    have happ : done ++ s :: zeroMap L n = (done ++ [s]) ++ zeroMap L n := by simp
    rw [foldl_cons, putEntry, hscan]
    simp only
    rw [happ, ih _ (by simpa using hused) (by simpa using hk) (by simpa using hn)]
    simp

/-! ## The round trip -/

/-- The loaded map has the used entries of the saved one in their places, and is free elsewhere. -/
def Reproduces (L : Layout F) (map loaded : List (List UInt8)) : Prop :=
  List.Forall₂ (fun b b' => if (L.view b).used then b' = b else (L.view b').used = false) map loaded

/-- `save_bin` ends, its file is the magic number, the count, the used entries and their CRC, and `load_bin` reproduces
the map from it. -/
def BinaryRoundTrip (L : Layout F) (junk : List UInt8) (map : List (List UInt8)) : Prop :=
  ∃ fuel file, saveBin L fuel map = some file ∧
    (∃ count pad, file = leBytes 2 valid ++ (count ++ ((usedEntries L map).flatten ++
        (leBytes 4 (crc32part (usedEntries L map).flatten 0).toNat ++ pad))) ∧
      count.length = 2 ∧ le count = usedCount L map) ∧
    ∃ loaded, loadBin L junk file (zeroMap L map.length) = (.ok (), loaded) ∧ Reproduces L map loaded

theorem crcBytes_eq : crcBytes crc = leBytes 4 crc.toNat := by
  refine le_inj (by simp [crcBytes]) ?_
  rw [le_crcBytes, le_leBytes crc.toNat_lt]

theorem usedCount_lt_of_roundTrip {junk : List UInt8} (h : BinaryRoundTrip L junk map) : usedCount L map < 65536 := by
  obtain ⟨-, -, -, ⟨count, -, -, hlen, hcount⟩, -⟩ := h
  have := le_lt count
  rw [hlen, hcount] at this
  omega

theorem forall₂_append_used {u r loaded : List (List UInt8)} (hu : ∀ b ∈ u, (L.view b).used)
    (h : Reproduces L (u ++ r) loaded) : ∃ r', loaded = u ++ r' := by
  induction u generalizing loaded with
  | nil => exact ⟨loaded, rfl⟩
  | cons b u ih =>
    obtain ⟨hb, hu⟩ := forall_mem_cons.mp hu
    obtain ⟨b', loaded, hbb', hrest, rfl⟩ := forall₂_cons_left_iff.mp h
    obtain ⟨r', rfl⟩ := ih hu hrest
    rw [if_pos hb] at hbb'
    exact ⟨r', by rw [hbb']; rfl⟩

theorem reproduces_zeroMap {u r : List (List UInt8)} (hm : map = u ++ r) (hu : ∀ b ∈ u, (L.view b).used)
    (hr : ∀ b ∈ r, (L.view b).used = false) : Reproduces L map (u ++ zeroMap L (map.length - u.length)) := by
  subst hm
  rw [length_append, Nat.add_sub_cancel_left]
  induction u with
  | cons b u ih =>
    obtain ⟨hb, hu⟩ := forall_mem_cons.mp hu
    exact .cons (by rw [if_pos hb]) (ih hu)
  | nil =>
    induction r with
    | nil => exact .nil
    | cons b r ih =>
      obtain ⟨hb, hr⟩ := forall_mem_cons.mp hr
      refine .cons ?_ (ih hr)
      rw [if_neg (by simp [hb]), L.view_zero]
      rfl

/-- **The binary round trip.** For a map whose used entries come first, it holds exactly where there are fewer than
65536, with different keys. -/
theorem binary_roundTrip_iff (L : Layout F) {junk : List UInt8} (hjunk : junk.length = L.size)
    (hsize : ∀ b ∈ map, b.length = L.size) (hfront : ∀ b ∈ map.drop (usedCount L map), (L.view b).used = false) :
    BinaryRoundTrip L junk map ↔
      usedCount L map < 65536 ∧ DistinctKeys L (usedEntries L map) := by
  have hsplit : map = usedEntries L map ++ map.drop (usedCount L map) := by
    conv => lhs; rw [← take_append_drop (usedCount L map) map]
    congr 1
    exact (prefix_iff_eq_take.mp ( takeWhile_prefix _)).symm
  have hused : ∀ b ∈ usedEntries L map, (L.view b).used := fun b => used_of_mem_usedEntries
  constructor
  · intro h
    have hlt := usedCount_lt_of_roundTrip h
    refine ⟨hlt, ?_⟩
    obtain ⟨fuel, file, hsave, -, loaded, hload, hrep⟩ := h
    -- what `load_bin` makes of an empty map is packed, and it holds the used entries
    have hpacked : Packed (loaded.map L.view) := by
      rcases loadBin_saved (zeroMap L map.length) hsize hjunk hsave with ⟨he, -⟩ | he
      · rw [he] at hload
        cases hload
      · rw [he] at hload
        cases hload
        exact packed_putEntries (fun b hb => hused b (mem_of_mem_take hb)) (packed_zeroMap _)
    rw [hsplit] at hrep
    obtain ⟨r', rfl⟩ := forall₂_append_used hused hrep
    rw [map_append] at hpacked
    have hp := pairwise_map.mp (pairwise_append.mp hpacked).1
    exact hp.imp_of_mem fun hx hy hxy => (hxy (hused _ hy)).2
  · rintro ⟨hlt, hkeys⟩
    obtain ⟨fuel, hfuel⟩ := saveBin_isSome L map
    obtain ⟨file, hfile⟩ := Option.isSome_iff_exists.mp hfuel
    obtain ⟨pad, hpad⟩ := saveBin_eq hsize hfile
    refine ⟨fuel, file, hfile, ⟨_, pad, by rw [hpad, crcBytes_eq], by simp, ?_⟩, ?_⟩
    · rw [le_leBytes_two, Nat.mod_eq_of_lt hlt]
    · rcases loadBin_saved (zeroMap L map.length) hsize hjunk hfile with ⟨-, hge⟩ | hload
      · omega
      rw [Nat.mod_eq_of_lt hlt, ← length_usedEntries, take_length] at hload
      refine ⟨_, hload, ?_⟩
      have hle : (usedEntries L map).length ≤ map.length := ( takeWhile_prefix _).length_le
      have hfold := foldl_putEntry [] (by simpa using hused) (by simpa using hkeys) hle
      rw [nil_append, nil_append] at hfold
      rw [hfold]
      exact reproduces_zeroMap hsplit hused hfront

end

def intLayout : Layout Empty where
  size := 16
  view b := ⟨Libc.cstr (b.take 5), if field b 8 4 = 0 then .empty else .int (.ofNat (field b 12 4))⟩
  view_zero := by decide +kernel

def intKey : List UInt8 :=
  [.ofNat (97 + n % 16), .ofNat (97 + n / 16 % 16), .ofNat (97 + n / 256 % 16), .ofNat (97 + n / 4096 % 16)]

def intEntry : List UInt8 := intKey n ++ [0, 0, 0, 0] ++ leBytes 4 1 ++ leBytes 4 n

theorem ofNat_letter (k : Nat) : (UInt8.ofNat (97 + k % 16)).toNat = 97 + k % 16 := by
  rw [UInt8.toNat_ofNat', Nat.mod_eq_of_lt (by omega)]

theorem view_intEntry : (intLayout.view (intEntry n)).key = intKey n ∧ (intLayout.view (intEntry n)).used := by
  refine ⟨?_, rfl⟩
  have hne : ∀ k, UInt8.ofNat (97 + k % 16) ≠ 0 := by
    intro k h
    have := congrArg UInt8.toNat h
    rw [ofNat_letter] at this
    change _ = 0 at this
    omega
  have hkey : ∀ c ∈ intKey n, decide (c ≠ 0) = true := by
    simp only [intKey, forall_mem_cons, decide_eq_true_eq]
    exact ⟨hne _, hne _, hne _, hne _, by simp⟩
  have hview : (intLayout.view (intEntry n)).key = Libc.cstr (intKey n ++ [0]) := rfl
  rw [hview, Libc.cstr, takeWhile_append_of_pos hkey]
  exact append_nil _

def intMap : List (List UInt8) := (range n).map intEntry

theorem forall_mem_intMap {P : List UInt8 → Prop} (h : ∀ k, P (intEntry k)) (n : Nat) : ∀ b ∈ intMap n, P b := by
  intro b hb
  obtain ⟨k, -, rfl⟩ := mem_map.mp hb
  exact h k

theorem usedEntries_intMap : usedEntries intLayout (intMap n) = intMap n :=
  takeWhile_eq_self_iff.mpr (forall_mem_intMap (fun k => (view_intEntry k).2) n)

theorem usedCount_intMap : usedCount intLayout (intMap n) = n := by
  rw [← length_usedEntries, usedEntries_intMap, intMap, length_map, length_range]

theorem drop_intMap : (intMap n).drop (usedCount intLayout (intMap n)) = [] := by
  rw [usedCount_intMap, drop_of_length_le (by rw [intMap, length_map, length_range])]

theorem distinctKeys_intMap {n : Nat} (hn : n ≤ 65536) : DistinctKeys intLayout (intMap n) := by
  refine pairwise_map.mpr (pairwise_lt_range.imp_of_mem fun {i j} hi hj hlt => ?_)
  rw [mem_range] at hi hj
  rw [(view_intEntry i).1, (view_intEntry j).1]
  intro h
  simp only [intKey, cons.injEq, and_true] at h
  obtain ⟨h₀, h₁, h₂, h₃⟩ := h
  have hnat : ∀ a b : Nat, UInt8.ofNat (97 + a % 16) = UInt8.ofNat (97 + b % 16) → a % 16 = b % 16 := by
    intro a b h
    have := congrArg UInt8.toNat h
    rw [ofNat_letter, ofNat_letter] at this
    omega
  have := hnat _ _ h₀
  have := hnat _ _ h₁
  have := hnat _ _ h₂
  have := hnat _ _ h₃
  omega

theorem binary_roundTrip_three :
    (usedCount intLayout (intMap 3) < 65536 ∧ DistinctKeys intLayout (usedEntries intLayout (intMap 3))) ∧
      BinaryRoundTrip intLayout (List.replicate 16 0) (intMap 3) := by
  have hc : usedCount intLayout (intMap 3) < 65536 ∧
      DistinctKeys intLayout (usedEntries intLayout (intMap 3)) := by
    rw [usedCount_intMap, usedEntries_intMap]
    exact ⟨by decide, distinctKeys_intMap (by decide)⟩
  refine ⟨hc, (binary_roundTrip_iff intLayout rfl (forall_mem_intMap (fun _ => rfl) 3) ?_).mpr hc⟩
  exact fun b hb => absurd hb not_mem_nil

/-- The count of 65536 entries with different keys does not fit its 16 bits. -/
theorem binary_count_truncated :
    (∀ b ∈ intMap 65536, b.length = intLayout.size) ∧
      (∀ b ∈ (intMap 65536).drop (usedCount intLayout (intMap 65536)),
        (intLayout.view b).used = false) ∧
      DistinctKeys intLayout (usedEntries intLayout (intMap 65536)) ∧
      ¬ BinaryRoundTrip intLayout (List.replicate 16 0) (intMap 65536) := by
  refine ⟨forall_mem_intMap (fun _ => rfl) _, ?_, ?_, fun h => ?_⟩
  · rw [drop_intMap]
    exact fun b hb => absurd hb not_mem_nil
  · rw [usedEntries_intMap]
    exact distinctKeys_intMap le_rfl
  · have := usedCount_lt_of_roundTrip h
    rw [usedCount_intMap] at this
    exact Nat.lt_irrefl _ this

end NuttxApps.Settings
