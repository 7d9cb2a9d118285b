import NuttxApps.Framework.Bytes
import NuttxApps.Framework.Crc

/-!
# Frames of the NxScope serial protocol

A frame is a start byte, its length in two bytes, an id, the data and a CRC. `frame_sound_iff` says when the decoder
stays inside the buffer, and that a finalized frame is decoded. `Got.reach` is one more than the largest offset that was
inspected; buffers have less than `2^31` bytes, as an index is an `int`.
-/

namespace NuttxApps.Nxscope

open Bytes Crc Option
open List hiding max

/-- The width of `size_t`, and `crc16xmodem` with the property the protocol relies on. -/
structure Env where
  bits : Nat
  wide : 32 ≤ bits
  crc16xmodem : List UInt8 → UInt16
  residue (s : List UInt8) : crc16xmodem (s ++ be16 (crc16xmodem s)) = 0

def Env.bits32 : Env := ⟨32, Nat.le_refl 32, (crc16xmodempart · 0), crc16xmodempart_residue⟩

def Env.sub (W : Env) (a b : Nat) : Nat := (a + 2 ^ W.bits - b) % 2 ^ W.bits

def sof : UInt8 := 0x55

structure Frame where
  id : UInt8
  (data drop dlen : Nat)
deriving DecidableEq

/-- What `nxscope_frame_get` returns, `none` for `-EINVAL`, and how far it has looked. -/
structure Got where
  frame : Option Frame
  reach : Nat
deriving DecidableEq

def findSof (mem : Nat → UInt8) : Nat → Nat → Option Nat
  | 0, _ => none
  | k + 1, i => if mem i = sof then some i else findSof mem k (i + 1)

def hdrLen (mem : Nat → UInt8) (i : Nat) : Nat := (mem (i + 1)).toNat + 256 * (mem (i + 2)).toNat

def frameGet (W : Env) (mem : Nat → UInt8) (len : Nat) : Got :=
  match findSof mem (W.sub len 4) 0 with
  | none => ⟨none, W.sub len 4⟩
  | some i =>
    let hlen := hdrLen mem i
    if W.sub len i < hlen then ⟨none, i + 3⟩
    else if W.crc16xmodem (bytesAt mem i hlen) ≠ 0 then ⟨none, i + max 3 hlen⟩
    else ⟨some ⟨mem (i + 3), i + 4, hlen + i, W.sub hlen 6⟩, i + max 4 hlen⟩

variable (W : Env) (id : UInt8)

def hdrFill (len : Nat) : List UInt8 := [sof] ++ leBytes 2 (len % 2 ^ 16) ++ [id]

/-- `nxscope_frame_final`: the buffer and its new length, `none` for `-ENODATA`. -/
def frameFinal (buff : List UInt8) (len : Nat) : Option (List UInt8 × Nat) :=
  if len ≤ 4 then none
  else
    let filled := splice buff 0 (hdrFill id (len + 2))
    some (splice filled len (be16 (W.crc16xmodem (filled.take len))), len + 2)

section

variable {W : Env} {mem : Nat → UInt8} {len i : Nat}

theorem Env.sub_of_le (W : Env) {a b : Nat} (hb : b ≤ a) (ha : a < 2 ^ W.bits) : W.sub a b = a - b := by
  rw [Env.sub, show a + 2 ^ W.bits - b = a - b + 2 ^ W.bits by omega, Nat.add_mod_right, Nat.mod_eq_of_lt (by omega)]

theorem Env.sub_of_lt (W : Env) {a b : Nat} (hb : a < b) (hsize : b ≤ 2 ^ W.bits) :
    W.sub a b = a + 2 ^ W.bits - b := by
  rw [Env.sub, Nat.mod_eq_of_lt (by omega)]

theorem Env.lt (W : Env) : 2 ^ 31 < 2 ^ W.bits :=
  Nat.pow_lt_pow_right (by decide) (Nat.lt_of_lt_of_le (by decide) W.wide)

def FirstSof (mem : Nat → UInt8) (k i : Nat) : Prop := i < k ∧ mem i = sof ∧ ∀ j < i, mem j ≠ sof

theorem findSof_eq_some {k : Nat} : findSof mem k 0 = some i ↔ FirstSof mem k i := by
  have hfrom : ∀ k a, findSof mem k a = some i ↔
      a ≤ i ∧ i < a + k ∧ mem i = sof ∧ ∀ j, a ≤ j → j < i → mem j ≠ sof := by
    intro k
    induction k with
    | zero => intro a; simp only [findSof, reduceCtorEq, false_iff]; omega
    | succ k ih =>
      intro a
      rw [findSof]
      split_ifs with ha
      · rw [some.injEq]
        constructor
        · rintro rfl
          exact ⟨.refl, by omega, ha, fun j h₁ h₂ => by omega⟩
        · rintro ⟨hle, -, -, hfirst⟩
          by_contra hne
          exact hfirst a .refl (by omega) ha
      · rw [ih]
        constructor
        · rintro ⟨hle, hlt, hi, hfirst⟩
          refine ⟨by omega, by omega, hi, fun j h₁ h₂ => ?_⟩
          rcases Nat.eq_or_lt_of_le h₁ with rfl | h₁
          · exact ha
          · exact hfirst j h₁ h₂
        · rintro ⟨hle, hlt, hi, hfirst⟩
          have hne : a ≠ i := fun h => ha (h ▸ hi)
          exact ⟨by omega, by omega, hi, fun j h₁ h₂ => hfirst j (by omega) h₂⟩
  rw [hfrom, FirstSof]
  simp

/-- The decoder inspects the bytes of the buffer only, and a frame that is returned lies in the buffer, from its start
byte at `i` to its CRC. -/
def Sound (W : Env) (mem : Nat → UInt8) (len : Nat) : Prop :=
  (frameGet W mem len).reach ≤ len ∧
    ∀ f, (frameGet W mem len).frame = some f →
      ∃ i, mem i = sof ∧ 6 ≤ hdrLen mem i ∧ i + hdrLen mem i ≤ len ∧ f.id = mem (i + 3) ∧ f.data = i + 4 ∧
        f.dlen + 6 = hdrLen mem i ∧ f.drop = i + hdrLen mem i ∧ 0 < f.drop ∧
        W.crc16xmodem (bytesAt mem i (hdrLen mem i)) = 0

/-- The buffer has a header, and the first start byte has a length for a frame or a CRC that is not zero. Shorter
buffers are rejected in time if they are a start byte and a length, beyond them or with such a CRC. -/
def Decodable (W : Env) (mem : Nat → UInt8) (len : Nat) : Prop :=
  4 ≤ len ∧ (∀ i, FirstSof mem (len - 4) i → 6 ≤ hdrLen mem i ∨ W.crc16xmodem (bytesAt mem i (hdrLen mem i)) ≠ 0) ∨
    len = 3 ∧ mem 0 = sof ∧ (3 < hdrLen mem 0 ∨ W.crc16xmodem (bytesAt mem 0 (hdrLen mem 0)) ≠ 0)

theorem reach_of_findSof (h : findSof mem (W.sub len 4) 0 = some i) : i + 3 ≤ (frameGet W mem len).reach := by
  rw [frameGet, h]
  dsimp only
  split_ifs <;> dsimp only <;> omega

theorem lt_reach (hlen : len < 4) (h : len < 3 ∨ mem 0 ≠ sof) : len < (frameGet W mem len).reach := by
  have hsize := W.lt
  rcases hfind : findSof mem (W.sub len 4) 0 with _ | i
  · rw [frameGet, hfind]
    dsimp only
    rw [W.sub_of_lt hlen (by omega)]
    omega
  · have hreach := reach_of_findSof hfind
    have hsof := (findSof_eq_some.mp hfind).2.1
    have hpos : len < 3 ∨ i ≠ 0 := h.imp_right fun h0 hi => h0 (hi ▸ hsof)
    omega

theorem frameGet_of_first (hfirst : FirstSof mem (W.sub len 4) i) (hi : i ≤ len) (hsize : len < 2 ^ W.bits) :
    frameGet W mem len =
      if len - i < hdrLen mem i then ⟨none, i + 3⟩
      else if W.crc16xmodem (bytesAt mem i (hdrLen mem i)) ≠ 0 then ⟨none, i + max 3 (hdrLen mem i)⟩
      else ⟨some ⟨mem (i + 3), i + 4, hdrLen mem i + i, W.sub (hdrLen mem i) 6⟩, i + max 4 (hdrLen mem i)⟩ := by
  rw [frameGet, findSof_eq_some.mpr hfirst]
  dsimp only
  rw [W.sub_of_le hi hsize]

theorem sound_of_none {k : Nat} (h : frameGet W mem len = ⟨none, k⟩) (hk : k ≤ len) : Sound W mem len := by
  rw [Sound, h]
  exact ⟨hk, fun f hf => nomatch hf⟩

theorem sound_iff_of_three (h0 : mem 0 = sof) :
    Sound W mem 3 ↔ 3 < hdrLen mem 0 ∨ W.crc16xmodem (bytesAt mem 0 (hdrLen mem 0)) ≠ 0 := by
  have hsize := W.lt
  have hfirst : FirstSof mem (W.sub 3 4) 0 := by
    rw [W.sub_of_lt (by decide) (by omega)]
    exact ⟨by omega, h0, fun j hj => absurd hj (Nat.not_lt_zero j)⟩
  have hget := frameGet_of_first hfirst (Nat.zero_le 3) (by omega)
  by_cases hlong : 3 < hdrLen mem 0
  · rw [if_pos hlong] at hget
    exact iff_of_true (sound_of_none hget (Nat.le_refl 3)) (.inl hlong)
  rw [if_neg hlong] at hget
  by_cases hcrc : W.crc16xmodem (bytesAt mem 0 (hdrLen mem 0)) ≠ 0
  · rw [if_pos hcrc] at hget
    exact iff_of_true (sound_of_none hget (by omega)) (.inr hcrc)
  · rw [if_neg hcrc] at hget
    refine iff_of_false (fun h => ?_) (not_or.mpr ⟨hlong, hcrc⟩)
    have hreach := h.1
    rw [hget] at hreach
    dsimp only at hreach
    omega

theorem sound_iff_of_first (hfirst : FirstSof mem (W.sub len 4) i) (hi : i + 4 < len) (hsize : len < 2 ^ W.bits) :
    Sound W mem len ↔ 6 ≤ hdrLen mem i ∨ W.crc16xmodem (bytesAt mem i (hdrLen mem i)) ≠ 0 := by
  have hget := frameGet_of_first hfirst (by omega) hsize
  by_cases hlong : len - i < hdrLen mem i
  · rw [if_pos hlong] at hget
    exact iff_of_true (sound_of_none hget (by omega)) (.inl (by omega))
  rw [if_neg hlong] at hget
  by_cases hcrc : W.crc16xmodem (bytesAt mem i (hdrLen mem i)) ≠ 0
  · rw [if_pos hcrc] at hget
    exact iff_of_true (sound_of_none hget (by omega)) (.inr hcrc)
  rw [if_neg hcrc] at hget
  rw [Sound, hget]
  constructor
  · rintro ⟨-, hframe⟩
    obtain ⟨j, -, hj, -, -, hdata, -⟩ := hframe _ rfl
    obtain rfl : j = i := by
      dsimp only at hdata
      omega
    exact .inl hj
  · intro h
    have hsix : 6 ≤ hdrLen mem i := h.resolve_right hcrc
    refine ⟨?_, fun f hf => ?_⟩
    · dsimp only
      omega
    · obtain rfl := some.inj hf
      refine ⟨i, hfirst.2.1, hsix, by omega, rfl, rfl, ?_, add_comm _ _, by dsimp only; omega, not_not.mp hcrc⟩
      dsimp only
      rw [W.sub_of_le hsix (by omega)]
      omega

theorem sound_iff_of_le (hlen : 4 ≤ len) (hsize : len < 2 ^ W.bits) :
    Sound W mem len ↔
      ∀ i, FirstSof mem (len - 4) i → 6 ≤ hdrLen mem i ∨ W.crc16xmodem (bytesAt mem i (hdrLen mem i)) ≠ 0 := by
  have hlimit : W.sub len 4 = len - 4 := W.sub_of_le hlen hsize
  rcases hfind : findSof mem (len - 4) 0 with _ | i
  · have hget : frameGet W mem len = ⟨none, len - 4⟩ := by rw [frameGet, hlimit, hfind]
    refine iff_of_true (sound_of_none hget (Nat.sub_le _ _)) fun i hi => ?_
    rw [← findSof_eq_some, hfind] at hi
    exact nomatch hi
  · have hfirst := findSof_eq_some.mp hfind
    have hlt := hfirst.1
    rw [sound_iff_of_first (hlimit ▸ hfirst) (by omega) hsize]
    refine ⟨fun h j hj => ?_, fun h => h i hfirst⟩
    rw [← findSof_eq_some, hfind] at hj
    exact some.inj hj ▸ h

theorem sound_iff (hsize : len < 2 ^ W.bits) : Sound W mem len ↔ Decodable W mem len := by
  rcases Nat.lt_or_ge len 4 with hlen | hlen
  · by_cases h : len = 3 ∧ mem 0 = sof
    · obtain ⟨rfl, h0⟩ := h
      rw [sound_iff_of_three h0, Decodable]
      simp [h0]
    · have hshort : len < 3 ∨ mem 0 ≠ sof := by
        rcases Nat.lt_or_ge len 3 with h3 | h3
        · exact .inl h3
        · exact .inr fun h0 => h ⟨by omega, h0⟩
      have hreach : len < (frameGet W mem len).reach := lt_reach hlen hshort
      refine iff_of_false (fun hs => absurd hs.1 (by omega)) ?_
      rintro (⟨h4, -⟩ | ⟨h3, h0, -⟩)
      · omega
      · exact h ⟨h3, h0⟩
  · rw [sound_iff_of_le hlen hsize, Decodable]
    constructor
    · exact fun h => .inl ⟨hlen, h⟩
    · rintro (⟨-, h⟩ | ⟨h3, -⟩)
      · exact h
      · omega

end

/-! ## Finalized frames -/

def encodeFrame (data : List UInt8) : List UInt8 :=
  let body := hdrFill id (data.length + 6) ++ data
  body ++ be16 (W.crc16xmodem body)

@[simp] theorem length_hdrFill (len : Nat) : (hdrFill id len).length = 4 := by simp [hdrFill]

@[simp] theorem length_encodeFrame (data : List UInt8) : (encodeFrame W id data).length = data.length + 6 := by
  have hcrc : ∀ c : UInt16, (be16 c).length = 2 := fun _ => rfl
  rw [encodeFrame, length_append, length_append, length_hdrFill, hcrc]
  omega

theorem frameFinal_eq {W : Env} {id : UInt8} {buff : List UInt8} {len : Nat} (hlen : 4 < len)
    (hroom : len + 2 ≤ buff.length) :
    frameFinal W id buff len = some (encodeFrame W id ((buff.take len).drop 4) ++ buff.drop (len + 2), len + 2) := by
  have hdata : ((buff.take len).drop 4).length + 6 = len + 2 := by
    rw [length_drop, length_take]
    omega
  have hfilled : splice buff 0 (hdrFill id (len + 2)) = hdrFill id (len + 2) ++ buff.drop 4 := by
    rw [splice_eq_append 0 (by rw [length_hdrFill]; omega), length_hdrFill]
    rfl
  have hbody : (hdrFill id (len + 2) ++ buff.drop 4).take len =
      hdrFill id (len + 2) ++ (buff.take len).drop 4 := by
    rw [take_append, take_of_length_le (by rw [length_hdrFill]; omega), length_hdrFill, drop_take]
  have hlength : (be16 (W.crc16xmodem (hdrFill id (len + 2) ++ (buff.take len).drop 4))).length = 2 := rfl
  have hrest : (hdrFill id (len + 2) ++ buff.drop 4).drop (len + 2) = buff.drop (len + 2) := by
    have hnil : (hdrFill id (len + 2)).drop (len + 2) = [] := drop_of_length_le (by rw [length_hdrFill]; omega)
    rw [drop_append, hnil, nil_append, length_hdrFill, drop_drop, show 4 + (len + 2 - 4) = len + 2 by omega]
  have hfits : len + 2 ≤ (hdrFill id (len + 2) ++ buff.drop 4).length := by
    rw [length_append, length_hdrFill, length_drop]
    omega
  rw [frameFinal, if_neg (by omega), hfilled]
  dsimp only
  rw [hbody, splice_eq_append len (by rw [hlength]; exact hfits), hbody, hlength, hrest, encodeFrame, hdata]

section

variable {W : Env} {mem : Nat → UInt8} {front data : List UInt8} {id : UInt8}

def Holds (W : Env) (mem : Nat → UInt8) (front : List UInt8) (id : UInt8) (data : List UInt8) : Prop :=
  bytesAt mem 0 (front.length + (data.length + 6)) = front ++ encodeFrame W id data

/-- A list with the frame in it, in memory that may hold anything behind the list. -/
theorem holds_append (W : Env) (front : List UInt8) (id : UInt8) (data rest : List UInt8) (stale : Nat → UInt8) :
    Holds W (fun k => (front ++ (encodeFrame W id data ++ rest)).getD k (stale k)) front id data := by
  rw [Holds, bytesAt_getD _ _ (by simp), ← append_assoc, take_left' (by simp)]

section

variable (h : Holds W mem front id data)

include h

theorem Holds.frame_eq : bytesAt mem front.length (data.length + 6) = encodeFrame W id data := by
  have hdrop := congrArg (List.drop front.length) h
  rwa [drop_bytesAt, zero_add, drop_left] at hdrop

theorem Holds.front_eq : bytesAt mem 0 front.length = front := by
  have htake := congrArg (List.take front.length) h
  rwa [take_bytesAt, take_left] at htake

theorem Holds.data_eq : bytesAt mem (front.length + 4) data.length = data := by
  have hframe := h.frame_eq
  have hbody : bytesAt mem front.length (4 + data.length) = hdrFill id (data.length + 6) ++ data := by
    rw [show data.length + 6 = 4 + data.length + 2 by omega] at hframe
    have htake := congrArg (List.take (4 + data.length)) hframe
    rw [take_bytesAt, encodeFrame, take_left' (by rw [length_append, length_hdrFill])] at htake
    exact htake
  have hdrop := congrArg (List.drop 4) hbody
  rwa [drop_bytesAt, drop_left' (length_hdrFill _ _)] at hdrop

theorem Holds.header :
    mem front.length = sof ∧ hdrLen mem front.length = (data.length + 6) % 2 ^ 16 ∧ mem (front.length + 3) = id := by
  have hhead : bytesAt mem front.length 4 = hdrFill id (data.length + 6) := by
    have htake := congrArg (List.take 4) h.frame_eq
    rw [show data.length + 6 = 4 + (data.length + 2) by omega, take_bytesAt, encodeFrame, append_assoc,
      take_left' (length_hdrFill _ _)] at htake
    exact htake
  rw [show bytesAt mem front.length 4 =
    [mem front.length, mem (front.length + 1), mem (front.length + 2), mem (front.length + 3)] from rfl,
      hdrFill] at hhead
  obtain ⟨hsof, hlo, hhi, hid⟩ : mem front.length = sof ∧
      mem (front.length + 1) = UInt8.ofNat ((data.length + 6) % 2 ^ 16 % 256) ∧
      mem (front.length + 2) = UInt8.ofNat ((data.length + 6) % 2 ^ 16 / 256 % 256) ∧ mem (front.length + 3) = id := by
    simpa [leBytes] using hhead
  refine ⟨hsof, ?_, hid⟩
  rw [hdrLen, hlo, hhi, UInt8.toNat_ofNat', UInt8.toNat_ofNat']
  omega

variable {len : Nat} (hfront : ∀ b ∈ front, b ≠ sof) (hle : front.length + (data.length + 6) ≤ len)
  (hsize : len < 2 ^ W.bits)

include hfront hle hsize

theorem Holds.findSof : findSof mem (W.sub len 4) 0 = some front.length := by
  rw [findSof_eq_some, W.sub_of_le (by omega) hsize]
  refine ⟨by omega, h.header.1, fun j hj => hfront _ ?_⟩
  have hmem := h.front_eq
  rw [← hmem]
  exact mem_of_getElem? ((getElem?_bytesAt mem 0 front.length j).trans (by rw [if_pos hj, zero_add]))

theorem frameGet_of_holds (hlen : data.length + 6 < 2 ^ 16) :
    (frameGet W mem len).frame = some ⟨id, front.length + 4, data.length + 6 + front.length, data.length⟩ := by
  obtain ⟨-, hhdr, hid⟩ := h.header
  rw [Nat.mod_eq_of_lt hlen] at hhdr
  have hlong : ¬ W.sub len front.length < data.length + 6 := by
    rw [W.sub_of_le (by omega) hsize]
    omega
  have hcrc : ¬ W.crc16xmodem (bytesAt mem front.length (data.length + 6)) ≠ 0 := by
    rw [h.frame_eq]
    exact fun hne => hne (W.residue _)
  rw [frameGet, h.findSof hfront hle hsize]
  dsimp only
  rw [hhdr, if_neg hlong, if_neg hcrc, hid, W.sub_of_le (by omega) (by omega), Nat.add_sub_cancel]

theorem dlen_ne_of_holds (hlen : ¬ data.length + 6 < 2 ^ 16) {f : Frame}
    (hf : (frameGet W mem len).frame = some f) : f.dlen ≠ data.length := by
  have hhdr := h.header.2.1
  have hdlen : f.dlen = W.sub (hdrLen mem front.length) 6 := by
    rw [frameGet, h.findSof hfront hle hsize] at hf
    dsimp only at hf
    split_ifs at hf
    rw [← some.inj hf]
  rw [hdlen]
  rcases Nat.lt_or_ge (hdrLen mem front.length) 6 with hshort | hshort
  · rw [W.sub_of_lt hshort (by omega)]
    omega
  · rw [W.sub_of_le hshort (by omega)]
    omega

end

/-- A frame at the start of a buffer is decoded, whatever follows it. -/
theorem frameGet_append {rest : List UInt8} (stale : Nat → UInt8) (hlen : data.length + 6 < 2 ^ 16)
    (hsize : (encodeFrame W id data ++ rest).length < 2 ^ W.bits) :
    let mem := fun k => (encodeFrame W id data ++ rest).getD k (stale k)
    (frameGet W mem (encodeFrame W id data ++ rest).length).frame = some ⟨id, 4, data.length + 6, data.length⟩ ∧
      bytesAt mem 4 data.length = data := by
  have hholds := holds_append W [] id data rest stale
  have hget := frameGet_of_holds hholds (forall_mem_nil _) (by simp) hsize hlen
  have hdata := hholds.data_eq
  exact ⟨hget, hdata⟩

def RoundTrip (W : Env) (front : List UInt8) (id : UInt8) (data buff : List UInt8) : Prop :=
  ∃ buff' len', frameFinal W id buff (data.length + 4) = some (buff', len') ∧
    ∀ mem, bytesAt mem 0 (front.length + len') = front ++ buff'.take len' →
      ∃ f, (frameGet W mem (front.length + len')).frame = some f ∧ f.id = id ∧ bytesAt mem f.data f.dlen = data

theorem decodes_final_iff {buff : List UInt8} (hdata : data ≠ []) (hbuff : (buff.drop 4).take data.length = data)
    (hroom : data.length + 6 ≤ buff.length) (hfront : ∀ b ∈ front, b ≠ sof)
    (hsize : front.length + (data.length + 6) < 2 ^ W.bits) :
    RoundTrip W front id data buff ↔ data.length + 6 < 2 ^ 16 := by
  have hpos : 0 < data.length := length_pos_iff.mpr hdata
  have hfinal : frameFinal W id buff (data.length + 4) =
      some (encodeFrame W id data ++ buff.drop (data.length + 6), data.length + 6) := by
    have htake : (buff.take (data.length + 4)).drop 4 = data := by
      rw [drop_take, Nat.add_sub_cancel]
      exact hbuff
    rw [frameFinal_eq (by omega) (by omega), htake]
  have htake : (encodeFrame W id data ++ buff.drop (data.length + 6)).take (data.length + 6) = encodeFrame W id data :=
    take_left' (length_encodeFrame W id data)
  constructor
  · rintro ⟨buff', len', heq, hget⟩
    obtain ⟨rfl, rfl⟩ := Prod.mk.inj (some.inj (hfinal.symm.trans heq))
    rw [htake] at hget
    by_contra hlen
    have hholds := holds_append W front id data [] fun _ => 0
    obtain ⟨f, hf, -, hbytes⟩ := hget _ hholds
    exact dlen_ne_of_holds hholds hfront .refl hsize hlen hf (by rw [← hbytes, length_bytesAt])
  · intro hlen
    refine ⟨_, _, hfinal, fun mem hmem => ?_⟩
    rw [htake] at hmem
    exact ⟨_, frameGet_of_holds hmem hfront .refl hsize hlen, rfl, Holds.data_eq hmem⟩

end

/-- When the decoder is sound, and when it decodes what was finalized. -/
theorem frame_sound_iff (W : Env) :
    (∀ (mem : Nat → UInt8) (len : Nat), len < 2 ^ W.bits → (Sound W mem len ↔ Decodable W mem len)) ∧
      ∀ (front : List UInt8) (id : UInt8) (data buff : List UInt8), data ≠ [] →
        (buff.drop 4).take data.length = data → data.length + 6 ≤ buff.length → (∀ b ∈ front, b ≠ sof) →
        front.length + (data.length + 6) < 2 ^ W.bits →
        (RoundTrip W front id data buff ↔ data.length + 6 < 2 ^ 16) :=
  ⟨fun _ _ hsize => sound_iff hsize, fun _ _ _ _ hdata hbuff hroom hfront hsize =>
    decodes_final_iff hdata hbuff hroom hfront hsize⟩

theorem frame_sound_small_buffers :
    let W := Env.bits32
    (Sound W (fun k => [0, 0, 0, 0, 0, 0, 0].getD k 0) 7 ↔ Decodable W (fun k => [0, 0, 0, 0, 0, 0, 0].getD k 0) 7) ∧
      (RoundTrip W [1, 2] 3 [9] [0, 0, 0, 0, 9, 0, 0] ↔ [9].length + 6 < 2 ^ 16) :=
  ⟨(frame_sound_iff .bits32).1 _ 7 (by decide),
    (frame_sound_iff .bits32).2 [1, 2] 3 [9] [0, 0, 0, 0, 9, 0, 0] (by decide) (by decide) (by decide)
      (by simp [sof]) (by decide)⟩

/-- A start byte with the length 0 is a frame with more data than there is memory. A buffer of one byte is read over its
end. -/
theorem empty_frame_decoded :
    let W := Env.bits32
    let mem : Nat → UInt8 := fun k => [0x55, 0, 0, 0, 0].getD k 0
    frameGet W mem 5 = ⟨some ⟨0, 4, 0, 2 ^ 32 - 6⟩, 4⟩ ∧ ¬ Sound W mem 5 ∧ 1 < (frameGet W mem 1).reach := by
  refine ⟨by decide +kernel, fun h => ?_, by decide +kernel⟩
  obtain ⟨i, -, -, -, -, -, -, -, hdrop, -⟩ := h.2 ⟨0, 4, 0, 2 ^ 32 - 6⟩ (by decide +kernel)
  exact absurd hdrop (by decide)

end NuttxApps.Nxscope
