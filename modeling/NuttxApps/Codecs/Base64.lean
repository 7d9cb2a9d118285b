import Mathlib.Data.Nat.Bitwise
import NuttxApps.Framework.CString

/-!
# Base64

`_base64_encode` and `_base64_decode`, with the two alphabets. The table for web addresses ends in `__`, and the last
group is read back as the one before: a string comes back just if it has no group of six ones (`decode_encode_iff`).
-/

namespace NuttxApps.Base64

open CString
open List

variable (websafe : Bool)

def base64Tab : List UInt8 :=
  if websafe then chars "ABCDEFGHIJKLMNOPQRSTUVWXYZabcdefghijklmnopqrstuvwxyz0123456789__".toList
  else chars "ABCDEFGHIJKLMNOPQRSTUVWXYZabcdefghijklmnopqrstuvwxyz0123456789+/".toList

def padding : UInt8 := if websafe then 46 else 61

def symbol (k : UInt8) : UInt8 := (base64Tab websafe).getD k.toNat 0

/-- Where `strchr` finds a character in the table and its terminator, and 0 if it does not. -/
def position (c : UInt8) : UInt8 := .ofNat (((base64Tab websafe ++ [0]).idxOf? c).getD 0)

def encode (websafe : Bool) : List UInt8 → List UInt8
  | a :: b :: c :: rest =>
    symbol websafe (a >>> 2) :: symbol websafe ((a &&& 0x03) <<< 4 ||| b >>> 4) ::
      symbol websafe ((b &&& 0x0f) <<< 2 ||| c >>> 6) :: symbol websafe (c &&& 0x3f) :: encode websafe rest
  | [a, b] =>
    [symbol websafe (a >>> 2), symbol websafe ((a &&& 0x03) <<< 4 ||| b >>> 4), symbol websafe ((b &&& 0x0f) <<< 2),
      padding websafe]
  | [a] => [symbol websafe (a >>> 2), symbol websafe ((a &&& 0x03) <<< 4), padding websafe, padding websafe]
  | [] => []

/-- The loop of `_base64_decode`: `block`, the character before, and the text that is left. -/
def decodeLoop (websafe : Bool) : List UInt8 → UInt8 → List UInt8 → List UInt8
  | _, _, [] => []
  | block, prev, c :: src =>
    match block ++ [position websafe c] with
    | [b₀, b₁, b₂, b₃] =>
      (b₀ <<< 2 ||| b₁ >>> 4) ::
        if prev = padding websafe then []
        else (b₁ <<< 4 ||| b₂ >>> 2) ::
          if c = padding websafe then []
          else (b₂ <<< 6 ||| b₃) :: decodeLoop websafe [] c src
    | block => decodeLoop websafe block c src

variable (src : List UInt8)

def decode : List UInt8 := decodeLoop websafe [] 0 src

def base64EncodeLength (len : Nat) : Nat := (len + 2) / 3 * 4

def base64Encode : List UInt8 := encode false src

def base64Decode : List UInt8 := decode false src

def base64wEncode : List UInt8 := encode true src

def base64wDecode : List UInt8 := decode true src

theorem length_encode (s : List UInt8) : (encode websafe s).length = base64EncodeLength s.length := by
  fun_induction encode with
  | case1 a b c rest ih =>
    simp only [length_cons, ih, base64EncodeLength]
    omega
  | case2 => simp [base64EncodeLength]
  | case3 => simp [base64EncodeLength]
  | case4 => simp [base64EncodeLength]

def reread (k : UInt8) : UInt8 := position websafe (symbol websafe k)

section

variable (websafe : Bool) {k : UInt8} (hk : k.toNat < 64)

include hk

theorem symbol_and_reread :
    symbol websafe k ≠ padding websafe ∧ reread websafe k = if websafe ∧ k = 63 then 62 else k := by
  have table : ((range 64).all fun n => [true, false].all fun w =>
      symbol w (.ofNat n) != padding w && reread w (.ofNat n) == if w ∧ UInt8.ofNat n = 63 then 62 else .ofNat n) =
        true := by
    decide +kernel
  have row := all_eq_true.mp table k.toNat (mem_range.mpr hk)
  simpa using all_eq_true.mp row websafe (by cases websafe <;> simp)

theorem symbol_ne_padding : symbol websafe k ≠ padding websafe :=
  (symbol_and_reread websafe hk).1

theorem reread_eq : reread websafe k = if websafe ∧ k = 63 then 62 else k :=
  (symbol_and_reread websafe hk).2

theorem reread_eq_self_iff : reread websafe k = k ↔ (websafe = true → k ≠ 63) := by
  rw [reread_eq websafe hk]
  split_ifs with h
  · simp [h.1, h.2]
  · simpa using h

theorem reread_lt : (reread websafe k).toNat < 64 := by
  rw [reread_eq websafe hk]
  split
  · decide
  · exact hk

end

def groups : List UInt8 → List UInt8
  | a :: b :: c :: rest =>
    a >>> 2 :: ((a &&& 0x03) <<< 4 ||| b >>> 4) :: ((b &&& 0x0f) <<< 2 ||| c >>> 6) :: (c &&& 0x3f) :: groups rest
  | [a, b] => [a >>> 2, (a &&& 0x03) <<< 4 ||| b >>> 4, (b &&& 0x0f) <<< 2]
  | [a] => [a >>> 2, (a &&& 0x03) <<< 4]
  | [] => []

theorem toNat_join (i j : Nat) (hi : i < 8) (hj : j < 8) {x y : UInt8} (hy : y.toNat / 2 ^ j < 2 ^ i) :
    (x <<< UInt8.ofNat i ||| y >>> UInt8.ofNat j).toNat = x.toNat % 2 ^ (8 - i) * 2 ^ i + y.toNat / 2 ^ j := by
  have hmod : x.toNat <<< i % 2 ^ 8 = (x.toNat % 2 ^ (8 - i)) <<< i := by
    rw [Nat.shiftLeft_eq, Nat.shiftLeft_eq, ← Nat.mul_mod_mul_right, ← pow_add, Nat.sub_add_cancel hi.le]
  have hofNat : ∀ k < 8, (UInt8.ofNat k).toNat % 8 = k := by
    intro k hk
    simp
    omega
  rw [UInt8.toNat_or, UInt8.toNat_shiftLeft, UInt8.toNat_shiftRight, hofNat i hi, hofNat j hj, hmod,
    Nat.shiftRight_eq_div_pow, ← Nat.shiftLeft_add_eq_or_of_lt hy, Nat.shiftLeft_eq]

section Values

variable (a b c : UInt8)

theorem toNat_group₀ : (a >>> 2).toNat = a.toNat / 4 := by
  simp [Nat.shiftRight_eq_div_pow]

theorem toNat_group₁ : ((a &&& 0x03) <<< 4 ||| b >>> 4).toNat = a.toNat % 4 * 16 + b.toNat / 16 := by
  have hlow : (a &&& 0x03).toNat = a.toNat % 4 := Nat.and_two_pow_sub_one_eq_mod a.toNat 2
  have hb := b.toNat_lt
  have hjoin := toNat_join 4 4 (by decide) (by decide) (x := a &&& 0x03) (y := b) (by omega)
  rw [hlow, Nat.mod_eq_of_lt (show a.toNat % 4 < 2 ^ (8 - 4) by omega)] at hjoin
  exact hjoin

theorem toNat_group₂ : ((b &&& 0x0f) <<< 2 ||| c >>> 6).toNat = b.toNat % 16 * 4 + c.toNat / 64 := by
  have hlow : (b &&& 0x0f).toNat = b.toNat % 16 := Nat.and_two_pow_sub_one_eq_mod b.toNat 4
  have hc := c.toNat_lt
  have hjoin := toNat_join 2 6 (by decide) (by decide) (x := b &&& 0x0f) (y := c) (by omega)
  rw [hlow, Nat.mod_eq_of_lt (show b.toNat % 16 < 2 ^ (8 - 2) by omega)] at hjoin
  exact hjoin

theorem toNat_group₃ : (c &&& 0x3f).toNat = c.toNat % 64 := Nat.and_two_pow_sub_one_eq_mod c.toNat 6

theorem group₁_last : (a &&& 0x03) <<< 4 = ((a &&& 0x03) <<< 4 ||| (0 : UInt8) >>> 4) := by simp

theorem group₂_last : (b &&& 0x0f) <<< 2 = ((b &&& 0x0f) <<< 2 ||| (0 : UInt8) >>> 6) := by simp

theorem groups_lt : (a >>> 2).toNat < 64 ∧ ((a &&& 0x03) <<< 4 ||| b >>> 4).toNat < 64 ∧
    ((b &&& 0x0f) <<< 2 ||| c >>> 6).toNat < 64 ∧ (c &&& 0x3f).toNat < 64 := by
  rw [toNat_group₀, toNat_group₁, toNat_group₂, toNat_group₃]
  have ha := a.toNat_lt
  have hb := b.toNat_lt
  have hc := c.toNat_lt
  omega

variable {a b c} {r₀ r₁ r₂ r₃ : UInt8} (h₀ : r₀.toNat < 64) (h₁ : r₁.toNat < 64) (h₂ : r₂.toNat < 64)
  (h₃ : r₃.toNat < 64)

theorem toNat_byte₀ (h₁ : r₁.toNat < 64) : (r₀ <<< 2 ||| r₁ >>> 4).toNat = r₀.toNat % 64 * 4 + r₁.toNat / 16 :=
  toNat_join 2 4 (by decide) (by decide) (by omega)

theorem toNat_byte₁ (h₂ : r₂.toNat < 64) : (r₁ <<< 4 ||| r₂ >>> 2).toNat = r₁.toNat % 16 * 16 + r₂.toNat / 4 :=
  toNat_join 4 2 (by decide) (by decide) (by omega)

theorem toNat_byte₂ (h₃ : r₃.toNat < 64) : (r₂ <<< 6 ||| r₃).toNat = r₂.toNat % 4 * 64 + r₃.toNat := by
  have hjoin := toNat_join 6 0 (by decide) (by decide) (x := r₂) (y := r₃) (by omega)
  simpa using hjoin

include h₀ h₁ h₂ h₃

theorem block_eq_iff : (r₀ <<< 2 ||| r₁ >>> 4) = a ∧ (r₁ <<< 4 ||| r₂ >>> 2) = b ∧ (r₂ <<< 6 ||| r₃) = c ↔
    r₀ = a >>> 2 ∧ r₁ = ((a &&& 0x03) <<< 4 ||| b >>> 4) ∧ r₂ = ((b &&& 0x0f) <<< 2 ||| c >>> 6) ∧
      r₃ = c &&& 0x3f := by
  simp only [← UInt8.toNat_inj, toNat_group₀, toNat_group₁, toNat_group₂, toNat_group₃, toNat_byte₀ h₁,
    toNat_byte₁ h₂, toNat_byte₂ h₃]
  have hb := b.toNat_lt
  have hc := c.toNat_lt
  omega

end Values

section

variable (websafe : Bool)

theorem decodeLoop_block (prev c₀ c₁ c₂ c₃ : UInt8) (src : List UInt8) :
    decodeLoop websafe [] prev (c₀ :: c₁ :: c₂ :: c₃ :: src) =
      (position websafe c₀ <<< 2 ||| position websafe c₁ >>> 4) ::
        if c₂ = padding websafe then []
        else (position websafe c₁ <<< 4 ||| position websafe c₂ >>> 2) ::
          if c₃ = padding websafe then []
          else (position websafe c₂ <<< 6 ||| position websafe c₃) :: decodeLoop websafe [] c₃ src := by
  simp [decodeLoop]

theorem block_reread_iff (a b c : UInt8) :
    ((reread websafe (a >>> 2) <<< 2 ||| reread websafe ((a &&& 0x03) <<< 4 ||| b >>> 4) >>> 4) = a ∧
      (reread websafe ((a &&& 0x03) <<< 4 ||| b >>> 4) <<< 4 |||
        reread websafe ((b &&& 0x0f) <<< 2 ||| c >>> 6) >>> 2) = b ∧
      (reread websafe ((b &&& 0x0f) <<< 2 ||| c >>> 6) <<< 6 ||| reread websafe (c &&& 0x3f)) = c) ↔
    (websafe = true → 63 ∉ groups [a, b, c]) := by
  obtain ⟨h₀, h₁, h₂, h₃⟩ := groups_lt a b c
  rw [block_eq_iff (reread_lt websafe h₀) (reread_lt websafe h₁) (reread_lt websafe h₂) (reread_lt websafe h₃),
    reread_eq_self_iff websafe h₀, reread_eq_self_iff websafe h₁, reread_eq_self_iff websafe h₂,
    reread_eq_self_iff websafe h₃]
  cases websafe <;> simp [groups, eq_comm]

theorem last_two_reread_iff (a b : UInt8) :
    ((reread websafe (a >>> 2) <<< 2 ||| reread websafe ((a &&& 0x03) <<< 4 ||| b >>> 4) >>> 4) = a ∧
      (reread websafe ((a &&& 0x03) <<< 4 ||| b >>> 4) <<< 4 ||| reread websafe ((b &&& 0x0f) <<< 2) >>> 2) = b) ↔
    (websafe = true → 63 ∉ groups [a, b]) := by
  obtain ⟨h₀, h₁, h₂, -⟩ := groups_lt a b 0
  rw [← group₂_last] at h₂
  have hval : ((b &&& 0x0f) <<< 2).toNat = b.toNat % 16 * 4 := by
    rw [group₂_last, toNat_group₂]
    simp
  have hne : (b &&& 0x0f) <<< 2 ≠ 63 := fun h => by
    have := hval.symm.trans (congrArg UInt8.toNat h)
    simp at this
    omega
  have hlast : reread websafe ((b &&& 0x0f) <<< 2) = (b &&& 0x0f) <<< 2 :=
    (reread_eq_self_iff websafe h₂).mpr fun _ => hne
  have hthird : ((b &&& 0x0f) <<< 2) <<< 6 ||| 0 = (0 : UInt8) := by
    rw [← UInt8.toNat_inj, toNat_byte₂ (by decide), hval]
    simp
  -- two bytes are a block whose third byte and last group are zero
  have hblock := block_eq_iff (a := a) (b := b) (c := 0) (reread_lt websafe h₀) (reread_lt websafe h₁) h₂
    (show (0 : UInt8).toNat < 64 by decide)
  rw [hthird, ← group₂_last, reread_eq_self_iff websafe h₀, reread_eq_self_iff websafe h₁] at hblock
  rw [hlast]
  cases websafe <;> simpa [groups, eq_comm, Ne.symm hne, hne] using hblock

theorem last_reread_iff (a : UInt8) :
    (reread websafe (a >>> 2) <<< 2 ||| reread websafe ((a &&& 0x03) <<< 4) >>> 4) = a ↔
      (websafe = true → 63 ∉ groups [a]) := by
  obtain ⟨h₀, h₁, -, -⟩ := groups_lt a 0 0
  rw [← group₁_last] at h₁
  have hval : ((a &&& 0x03) <<< 4).toNat = a.toNat % 4 * 16 := by
    rw [group₁_last, toNat_group₁]
    simp
  have hne : (a &&& 0x03) <<< 4 ≠ 63 := fun h => by
    have := hval.symm.trans (congrArg UInt8.toNat h)
    simp at this
    omega
  have hlast : reread websafe ((a &&& 0x03) <<< 4) = (a &&& 0x03) <<< 4 :=
    (reread_eq_self_iff websafe h₁).mpr fun _ => hne
  have hbyte : (reread websafe (a >>> 2) <<< 2 ||| (a &&& 0x03) <<< 4 >>> 4) = a ↔
      reread websafe (a >>> 2) = a >>> 2 := by
    have hr := reread_lt websafe h₀
    rw [← UInt8.toNat_inj, ← UInt8.toNat_inj, toNat_byte₀ h₁, hval, toNat_group₀]
    omega
  rw [hlast, hbyte, reread_eq_self_iff websafe h₀]
  cases websafe <;> simp [groups, eq_comm, hne]

theorem decodeLoop_encode_iff (prev : UInt8) (s : List UInt8) :
    decodeLoop websafe [] prev (encode websafe s) = s ↔ (websafe = true → 63 ∉ groups s) := by
  fun_induction encode websafe s generalizing prev with
  | case1 a b c rest ih =>
    obtain ⟨-, -, h₂, h₃⟩ := groups_lt a b c
    have hgroups : groups (a :: b :: c :: rest) = groups [a, b, c] ++ groups rest := rfl
    have hblock := block_reread_iff websafe a b c
    simp only [reread] at hblock
    rw [decodeLoop_block, if_neg (symbol_ne_padding websafe h₂), if_neg (symbol_ne_padding websafe h₃), hgroups]
    simp only [cons.injEq, ih, mem_append, not_or]
    tauto
  | case2 a b =>
    have h₂ := (groups_lt a b 0).2.2.1
    rw [← group₂_last] at h₂
    rw [decodeLoop_block, if_neg (symbol_ne_padding websafe h₂), if_pos rfl, ← last_two_reread_iff]
    simp [reread]
  | case3 a =>
    rw [decodeLoop_block, if_pos rfl, ← last_reread_iff]
    simp [reread]
  | case4 => simp [decodeLoop, groups]

end

/-- Bytes are decoded from their encoding, which has the length that is announced, unless the web-safe alphabet is used
and a group is 63: its character is not read back. -/
theorem decode_encode_iff (s : List UInt8) :
    (decode websafe (encode websafe s) = s ∧ (encode websafe s).length = base64EncodeLength s.length) ↔
      (websafe = true → 63 ∉ groups s) := by
  rw [decode, decodeLoop_encode_iff, and_iff_left (length_encode websafe s)]

/-- A byte of ones comes back from the other alphabet as 251. -/
theorem base64wDecode_ne : base64wDecode (base64wEncode [255]) ≠ [255] := by
  decide +kernel

end NuttxApps.Base64
