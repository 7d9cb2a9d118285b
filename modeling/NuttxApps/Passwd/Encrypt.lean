import Mathlib.Data.Nat.Digits.Lemmas
import NuttxApps.Framework.Bytes
import NuttxApps.Framework.Digest

/-!
# Encrypted passwords

`passwd_encrypt` takes a password in gulps of eight bytes, the last one filled with spaces; each is enciphered and
packed into characters of six bits. The packing loses nothing (`packed_encrypted`), so two texts are equal just if the
passwords are equal after padding (`encrypted_inj`).
-/

namespace NuttxApps.Passwd

open Bytes
open List hiding Vector

/-- `CONFIG_FSUTILS_PASSWD_IOBUFFER_SIZE`, the byte order of the target, and `tea_encrypt` with the key of the
configuration. -/
structure Config where
  iobufferSize : Nat
  two_le : 2 ≤ iobufferSize
  big : Bool
  tea : Equiv.Perm (Vector UInt8 8)

def maxEncrypted : Nat := 48

def maxPassword : Nat := 3 * maxEncrypted / 4

def base64 (binary : Nat) : UInt8 :=
  let b := binary &&& 63
  .ofNat (if b < 26 then 65 + b else
    let b := b - 26
    if b < 26 then 97 + b else
      let b := b - 26
      if b < 10 then 48 + b else
        let b := b - 10
        if b = 0 then 43 else 47)

structure Pack where
  dest : List UInt8
  (tmp nbits : Nat)

def drain : Nat → Pack → Pack
  | 0, s => s
  | fuel + 1, s =>
    if 6 ≤ s.nbits then
      drain fuel { dest := s.dest ++ [base64 (s.tmp &&& 0x3f)], tmp := s.tmp >>> 6, nbits := s.nbits - 6 }
    else s

def push (s : Pack) (h : Nat) : Pack :=
  drain (s.nbits + 16) { s with tmp := h <<< s.nbits ||| s.tmp, nbits := s.nbits + 16 }

def gulp (src : List UInt8) : Vector UInt8 8 := Vector.ofFn fun i => src.getD i 32

def gulpsAux : Nat → List UInt8 → List (Vector UInt8 8)
  | 0, _ => []
  | fuel + 1, src => if src = [] then [] else gulp src :: gulpsAux fuel (src.drop 8)

def gulps (password : List UInt8) : List (Vector UInt8 8) := gulpsAux password.length password

def halves (big : Bool) (v : Vector UInt8 8) : List Nat :=
  [load big [v[0], v[1]], load big [v[2], v[3]], load big [v[4], v[5]], load big [v[6], v[7]]]

section

variable (cfg : Config)

/-- One pass of the loop of `passwd_encrypt`; the remainder is kept in a byte. -/
def cycle (s : Pack) (v : Vector UInt8 8) : Pack :=
  let s := (halves cfg.big (cfg.tea v)).foldl push s
  { s with tmp := s.tmp % 256 }

def encrypted (password : List UInt8) : List UInt8 :=
  let s := (gulps password).foldl (cycle cfg) ⟨[], 0, 0⟩
  if 0 < s.nbits then s.dest ++ [base64 s.tmp] else s.dest

inductive Encrypted
  /-- `-E2BIG`. -/
  | tooBig
  /-- The text and its terminator are longer than `char encrypted[MAX_ENCRYPTED + 1]`. -/
  | overrun
  | ok (text : List UInt8)
deriving DecidableEq, Repr

def encrypt (password : List UInt8) : Encrypted :=
  if maxPassword < password.length then .tooBig
  else if maxEncrypted < (encrypted cfg password).length then .overrun
  else .ok (encrypted cfg password)

end

/-! ## The number that the characters stand for -/

def sextet (c : UInt8) : Nat := ((range 64).map base64).idxOf c

variable (b : Nat)

theorem base64_mod : base64 b = base64 (b % 64) := by
  have h64 : ∀ m : Nat, m &&& 63 = m % 64 := fun m => Nat.and_two_pow_sub_one_eq_mod m 6
  simp only [base64, h64, Nat.mod_mod]

theorem sextet_base64 : sextet (base64 b) = b % 64 := by
  have h : ∀ n < 64, sextet (base64 n) = n := by decide +kernel
  rw [base64_mod, h _ (Nat.mod_lt _ (by decide))]

structure Packed (s : Pack) (v n : Nat) : Prop where
  value : Nat.ofDigits 64 (s.dest.map sextet) + 64 ^ s.dest.length * s.tmp = v
  bits : 6 * s.dest.length + s.nbits = n
  tmp_lt : s.tmp < 2 ^ s.nbits
  dest_mem : ∀ c ∈ s.dest, ∃ b, c = base64 b

variable {s : Pack} {v n : Nat}

theorem Packed.emit (h : Packed s v n) (h6 : 6 ≤ s.nbits) :
    Packed { dest := s.dest ++ [base64 (s.tmp &&& 0x3f)], tmp := s.tmp >>> 6, nbits := s.nbits - 6 } v n := by
  have hpow : 2 ^ s.nbits = 2 ^ (s.nbits - 6) * 64 := by
    rw [show 64 = 2 ^ 6 from rfl, ← pow_add, Nat.sub_add_cancel h6]
  refine ⟨?_, ?_, ?_, ?_⟩
  · rw [← h.value, map_append, Nat.ofDigits_append, map_singleton, Nat.ofDigits_singleton, sextet_base64,
      show s.tmp &&& 0x3f = s.tmp % 64 from Nat.and_two_pow_sub_one_eq_mod s.tmp 6, Nat.mod_mod, length_map,
      length_append, length_singleton, Nat.pow_succ, Nat.shiftRight_eq_div_pow, mul_assoc,
      add_assoc, ← mul_add, Nat.mod_add_div]
  · have := h.bits
    simp only [length_append, length_singleton]
    omega
  · show s.tmp >>> 6 < 2 ^ (s.nbits - 6)
    have := h.tmp_lt
    omega
  · exact forall_mem_append.mpr ⟨h.dest_mem, by simp⟩

theorem Packed.drain (h : Packed s v n) {fuel : Nat} (hfuel : s.nbits ≤ fuel) :
    Packed (drain fuel s) v n ∧ (drain fuel s).nbits < 6 := by
  induction fuel generalizing s with
  | zero => exact ⟨h, by simp only [Passwd.drain]; omega⟩
  | succ fuel ih =>
    rw [Passwd.drain]
    split
    · exact ih (h.emit ‹_›) (by simp only; omega)
    · exact ⟨h, by omega⟩

theorem Packed.push {v n x : Nat} (h : Packed s v n) (hx : x < 2 ^ 16) :
    Packed (push s x) (v + 2 ^ n * x) (n + 16) ∧ (push s x).nbits < 6 := by
  refine Packed.drain ⟨?_, ?_, ?_, ?_⟩ le_rfl
  · have hpow : 2 ^ n = 64 ^ s.dest.length * 2 ^ s.nbits := by
      rw [← h.bits, Nat.pow_add, Nat.pow_mul]
    rw [← Nat.shiftLeft_add_eq_or_of_lt h.tmp_lt, Nat.shiftLeft_eq, ← h.value, hpow, Nat.mul_add]
    ring
  · have := h.bits
    simp only
    omega
  · rw [← Nat.shiftLeft_add_eq_or_of_lt h.tmp_lt, Nat.shiftLeft_eq, Nat.pow_add]
    have := h.tmp_lt
    nlinarith
  · exact h.dest_mem

theorem Packed.foldl_push (h : Packed s v n) (h6 : s.nbits < 6) {hs : List Nat} (hhs : ∀ x ∈ hs, x < 2 ^ 16) :
    Packed (hs.foldl Passwd.push s) (v + 2 ^ n * Nat.ofDigits (2 ^ 16) hs) (n + 16 * hs.length) ∧
      (hs.foldl Passwd.push s).nbits < 6 := by
  induction hs generalizing s v n with
  | nil => exact ⟨by simpa using h, h6⟩
  | cons x hs ih =>
    rw [forall_mem_cons] at hhs
    have hp := h.push hhs.1
    have hr := ih hp.1 hp.2 hhs.2
    rw [foldl_cons]
    refine ⟨?_, hr.2⟩
    convert hr.1 using 1
    · rw [Nat.ofDigits_cons, pow_add]
      ring
    · rw [length_cons]
      ring

variable (password : List UInt8) (big : Bool)

section

variable (cfg : Config)

theorem halves_lt (v : Vector UInt8 8) : ∀ x ∈ halves big v, x < 2 ^ 16 := by
  intro x hx
  have hload : ∃ a b, x = load big [a, b] := by
    simp only [halves, mem_cons, not_mem_nil, or_false] at hx
    obtain rfl | rfl | rfl | rfl := hx <;> exact ⟨_, _, rfl⟩
  obtain ⟨a, b, rfl⟩ := hload
  simpa using load_lt big [a, b]

theorem length_halves (v : Vector UInt8 8) : (halves big v).length = 4 := rfl

theorem Packed.cycle (h : Packed s v n) (h6 : s.nbits < 6) (b : Vector UInt8 8) :
    Packed (cycle cfg s b) (v + 2 ^ n * Nat.ofDigits (2 ^ 16) (halves cfg.big (cfg.tea b))) (n + 64) ∧
      (cycle cfg s b).nbits < 6 := by
  obtain ⟨hp, hnbits⟩ := h.foldl_push h6 (halves_lt cfg.big (cfg.tea b))
  rw [Passwd.cycle]
  generalize (halves cfg.big (cfg.tea b)).foldl Passwd.push s = s' at hp hnbits
  have hlt : s'.tmp < 256 := hp.tmp_lt.trans_le (Nat.pow_le_pow_right (by decide) (show s'.nbits ≤ 8 by omega))
  simp only [Nat.mod_eq_of_lt hlt]
  exact ⟨hp, hnbits⟩

def words (gs : List (Vector UInt8 8)) : List Nat := gs.flatMap fun b => halves cfg.big (cfg.tea b)

theorem length_words (gs : List (Vector UInt8 8)) : (words cfg gs).length = 4 * gs.length := by
  simp [words, halves, mul_comm]

theorem Packed.foldl_cycle (h : Packed s v n) (h6 : s.nbits < 6) (gs : List (Vector UInt8 8)) :
    Packed (gs.foldl (Passwd.cycle cfg) s) (v + 2 ^ n * Nat.ofDigits (2 ^ 16) (words cfg gs)) (n + 64 * gs.length) ∧
      (gs.foldl (Passwd.cycle cfg) s).nbits < 6 := by
  induction gs generalizing s v n with
  | nil => exact ⟨by simpa [words] using h, h6⟩
  | cons b gs ih =>
    have hp := h.cycle cfg h6 b
    have hr := ih hp.1 hp.2
    rw [foldl_cons]
    refine ⟨?_, hr.2⟩
    convert hr.1 using 1
    · rw [words, flatMap_cons, Nat.ofDigits_append, length_halves, words, pow_add]
      ring
    · rw [length_cons]
      ring

theorem packed_encrypted (password : List UInt8) :
    Nat.ofDigits 64 ((encrypted cfg password).map sextet) = Nat.ofDigits (2 ^ 16) (words cfg (gulps password)) ∧
      (encrypted cfg password).length = (64 * (gulps password).length + 5) / 6 ∧
      ∀ c ∈ encrypted cfg password, ∃ b, c = base64 b := by
  have hstart : Packed ⟨[], 0, 0⟩ 0 0 := ⟨rfl, rfl, by decide, by simp⟩
  obtain ⟨hp, h6⟩ := hstart.foldl_cycle cfg (by decide) (gulps password)
  rw [encrypted]
  generalize (gulps password).foldl (cycle cfg) ⟨[], 0, 0⟩ = s at hp h6
  obtain ⟨hvalue, hbits, htmp, hdest⟩ := hp
  simp only [zero_add, pow_zero, one_mul] at hvalue hbits
  split_ifs with hnbits
  · have hlt : s.tmp < 64 := htmp.trans (Nat.pow_lt_pow_right (by decide) h6)
    rw [map_append, Nat.ofDigits_append, map_singleton, Nat.ofDigits_singleton, sextet_base64,
      Nat.mod_eq_of_lt hlt, length_map, hvalue, length_append, length_singleton]
    exact ⟨rfl, by omega, forall_mem_append.mpr ⟨hdest, by simp⟩⟩
  · have hzero : s.nbits = 0 := by omega
    rw [hzero, pow_zero, Nat.lt_one_iff] at htmp
    exact ⟨by simpa [htmp] using hvalue, by omega, hdest⟩

theorem encrypted_notMem (password : List UInt8) {c : UInt8} (hc : c = 58 ∨ c = 10 ∨ c = 0) :
    c ∉ encrypted cfg password := by
  intro hmem
  obtain ⟨b, rfl⟩ := (packed_encrypted cfg password).2.2 c hmem
  have h : ∀ n < 64, base64 n ≠ 58 ∧ base64 n ≠ 10 ∧ base64 n ≠ 0 := by decide +kernel
  have := h (b % 64) (Nat.mod_lt _ (by decide))
  rw [← base64_mod] at this
  tauto

theorem halves_injective : Function.Injective (halves big) := by
  intro v w h
  simp only [halves, cons.injEq, and_true] at h
  have h0 := load_inj (by rfl) h.1
  have h1 := load_inj (by rfl) h.2.1
  have h2 := load_inj (by rfl) h.2.2.1
  have h3 := load_inj (by rfl) h.2.2.2
  simp only [cons.injEq, and_true] at h0 h1 h2 h3
  refine Vector.ext fun i hi => ?_
  interval_cases i
  exacts [h0.1, h0.2, h1.1, h1.2, h2.1, h2.2, h3.1, h3.2]

theorem gulps_eq_of_encrypted_eq {p q : List UInt8} (h : encrypted cfg p = encrypted cfg q) : gulps p = gulps q := by
  obtain ⟨hp, hlp, -⟩ := packed_encrypted cfg p
  obtain ⟨hq, hlq, -⟩ := packed_encrypted cfg q
  rw [h] at hp hlp
  have hlength : (gulps p).length = (gulps q).length := by omega
  have hlt : ∀ gs : List (Vector UInt8 8), ∀ x ∈ words cfg gs, x < 2 ^ 16 := by
    intro gs x hx
    obtain ⟨b, -, hb⟩ := mem_flatMap.mp hx
    exact halves_lt _ _ x hb
  have hwords : words cfg (gulps p) = words cfg (gulps q) :=
    Nat.ofDigits_inj_of_len_eq (by decide) (by rw [length_words, length_words, hlength]) (hlt _) (hlt _)
      (hp.symm.trans hq)
  exact ((halves_injective cfg.big).comp cfg.tea.injective).list_map
    (Digest.map_eq_of_flatMap (show 0 < 4 by decide) (fun _ => length_halves ..) hwords)

def padded : List UInt8 :=
  password ++ replicate ((8 - password.length % 8) % 8) 32

theorem toList_gulp (src : List UInt8) : (gulp src).toList = (src ++ replicate 8 32).take 8 := by
  apply ext_getElem
  · simp
  · intro i h₁ h₂
    simp only [gulp, Vector.getElem_toList, Vector.getElem_ofFn, getElem_take, getElem_append,
      getD_eq_getElem?_getD]
    split
    · rw [getElem?_eq_getElem ‹_›, Option.getD_some]
    · rw [getElem?_eq_none (by omega), Option.getD_none, getElem_replicate]

theorem flatMap_gulps : (gulps password).flatMap Vector.toList = padded password := by
  suffices h : ∀ fuel src, src.length ≤ fuel → (gulpsAux fuel src).flatMap Vector.toList = padded src from
    h _ _ le_rfl
  intro fuel
  induction fuel with
  | zero =>
    intro src h
    rw [length_eq_zero_iff.mp (Nat.le_zero.mp h)]
    rfl
  | succ fuel ih =>
    intro src h
    rw [gulpsAux]
    split_ifs with hsrc
    · rw [hsrc]
      rfl
    · have hpos := length_pos_iff.mpr hsrc
      rw [flatMap_cons, ih _ (by rw [length_drop]; omega), toList_gulp, padded, padded, length_drop]
      rcases lt_or_ge src.length 8 with hlt | hge
      · rw [take_append, take_of_length_le hlt.le, take_replicate, drop_eq_nil_of_le hlt.le]
        simp
        omega
      · rw [take_append_of_le_length hge, ← append_assoc, take_append_drop]
        congr 2
        omega

theorem encrypted_eq_iff {p q : List UInt8} : encrypted cfg p = encrypted cfg q ↔ padded p = padded q := by
  constructor
  · intro h
    rw [← flatMap_gulps, ← flatMap_gulps, gulps_eq_of_encrypted_eq cfg h]
  · intro h
    rw [← flatMap_gulps, ← flatMap_gulps] at h
    have hinj : Function.Injective (Vector.toList : Vector UInt8 8 → List UInt8) := fun _ _ => Vector.toList_inj.mp
    rw [encrypted, encrypted,
      hinj.list_map (Digest.map_eq_of_flatMap (show 0 < 8 by decide) (fun v => Vector.length_toList) h)]

theorem length_gulps : (gulps password).length = (password.length + 7) / 8 := by
  have h := congrArg List.length (flatMap_gulps password)
  have hsum : ((gulps password).flatMap Vector.toList).length = 8 * (gulps password).length := by
    simp [length_flatMap, mul_comm]
  rw [hsum, padded, length_append, length_replicate] at h
  omega

theorem length_encrypted (password : List UInt8) :
    (encrypted cfg password).length = (64 * ((password.length + 7) / 8) + 5) / 6 := by
  rw [(packed_encrypted cfg password).2.1, length_gulps]

theorem encrypt_eq_ok_iff {password e : List UInt8} :
    encrypt cfg password = .ok e ↔ password.length ≤ 32 ∧ e = encrypted cfg password := by
  have hlength := length_encrypted cfg password
  rw [encrypt, maxPassword, maxEncrypted]
  split_ifs with hbig hoverrun
  · simp
    omega
  · simp
    omega
  · rw [Encrypted.ok.injEq, eq_comm, iff_and_self]
    omega

/-- A password of `MAX_PASSWORD` characters is admitted, but one of more than four gulps does not fit. -/
theorem encrypt_eq_overrun_iff {password : List UInt8} :
    encrypt cfg password = .overrun ↔ 32 < password.length ∧ password.length ≤ 36 := by
  have hlength := length_encrypted cfg password
  rw [encrypt, maxPassword, maxEncrypted]
  split_ifs
  all_goals
    simp
    omega

@[ext] structure CStr where
  chars : List UInt8
  nul_notMem : 0 ∉ chars

def Whole : Prop := 8 ∣ password.length ∧ password.getLast? ≠ some 32

end

namespace Tea

def mix (k₀ k₁ sum v : UInt32) : UInt32 := ((v <<< 4) + k₀) ^^^ (v + sum) ^^^ ((v >>> 5) + k₁)

def round (key : Vector UInt32 4) (sum : UInt32) : Equiv.Perm (UInt32 × UInt32) where
  toFun v :=
    let v₀ := v.1 + mix key[0] key[1] sum v.2
    (v₀, v.2 + mix key[2] key[3] sum v₀)
  invFun v :=
    let v₁ := v.2 - mix key[2] key[3] sum v.1
    (v.1 - mix key[0] key[1] sum v₁, v₁)
  left_inv v := by simp
  right_inv v := by simp

def rounds (key : Vector UInt32 4) : Equiv.Perm (UInt32 × UInt32) :=
  (range 32).foldl (fun e i => e.trans (round key (0x9e3779b9 * .ofNat (i + 1)))) (Equiv.refl _)

theorem store_load (bs : List UInt8) : store big bs.length (load big bs) = bs := by
  cases big with
  | false => exact leBytes_le bs
  | true =>
    have := leBytes_le bs.reverse
    rw [length_reverse] at this
    simp [store, load, this]

theorem exists_store (w : UInt32) :
    ∃ a b c d, store big 4 w.toNat = [a, b, c, d] ∧ UInt32.ofNat (load big [a, b, c, d]) = w := by
  have h : load big (store big 4 w.toNat) = w.toNat := load_store big w.toNat_lt
  obtain ⟨a, b, c, d, hs⟩ : ∃ a b c d, store big 4 w.toNat = [a, b, c, d] := by
    cases big <;> exact ⟨_, _, _, _, rfl⟩
  rw [hs] at h
  exact ⟨a, b, c, d, hs, by rw [h, UInt32.ofNat_toNat]⟩

theorem store_ofNat_load (a b c d : UInt8) :
    store big 4 (UInt32.ofNat (load big [a, b, c, d])).toNat = [a, b, c, d] := by
  have hlt : load big [a, b, c, d] < 2 ^ 32 := by simpa using load_lt big [a, b, c, d]
  rw [UInt32.toNat_ofNat_of_lt' hlt]
  exact store_load big [a, b, c, d]

def words : Vector UInt8 8 ≃ UInt32 × UInt32 where
  toFun v := (.ofNat (load big [v[0], v[1], v[2], v[3]]), .ofNat (load big [v[4], v[5], v[6], v[7]]))
  invFun w := Vector.ofFn fun i => (store big 4 w.1.toNat ++ store big 4 w.2.toNat).getD i 0
  left_inv v := by
    refine Vector.ext fun i hi => ?_
    simp only [store_ofNat_load, Vector.getElem_ofFn]
    interval_cases i <;> rfl
  right_inv w := by
    obtain ⟨a, b, c, d, hs, hw⟩ := exists_store big w.1
    obtain ⟨a', b', c', d', hs', hw'⟩ := exists_store big w.2
    simp only [hs, hs', Vector.getElem_ofFn]
    exact Prod.ext hw hw'

def encrypt (key : Vector UInt32 4) : Equiv.Perm (Vector UInt8 8) :=
  (words big).trans ((rounds key).trans (words big).symm)

end Tea

def defaultConfig : Config where
  iobufferSize := 512
  two_le := by decide
  big := false
  tea := Tea.encrypt false #v[0x12345678, 0x9abcdef0, 0x12345678, 0x9abcdef0]

end NuttxApps.Passwd
