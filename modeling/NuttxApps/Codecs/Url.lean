import NuttxApps.Framework.CString

/-!
# Percent encoding

`urlencode` and `urldecode` agree with `urlencode_len` and `urldecode_len` on every text (`urldecode_urlencode`).
`urlrawdecode` works in place and steps over the two characters behind a `%` without looking for the terminator; its
memory is modelled with the places it reads (`urlrawdecode_inside_iff`). Texts have less than `2^31` bytes, as a length
is an `int`.
-/

namespace NuttxApps.Url

open CString List

def hexChars : List UInt8 := chars "0123456789ABCDEF".toList

def unreserved (c : UInt8) : Bool :=
  (48 ≤ c && c ≤ 57) || (97 ≤ c && c ≤ 122) || (65 ≤ c && c ≤ 90) || c == 95 || c == 45 || c == 46 || c == 126

/-- `urlencode`: the text it stores in front of the terminator. -/
def urlencode : List UInt8 → List UInt8
  | [] => []
  | c :: src =>
    if unreserved c then c :: urlencode src
    else if c = 32 then 43 :: urlencode src
    else 37 :: hexChars.getD (c >>> 4).toNat 0 :: hexChars.getD (c &&& 0x0f).toNat 0 :: urlencode src

def urlencodeLen : List UInt8 → Nat
  | [] => 0
  | c :: src => if unreserved c || c == 32 then urlencodeLen src + 1 else urlencodeLen src + 3

def isHexChar (c : UInt8) : Bool := (48 ≤ c && c ≤ 57) || (97 ≤ c && c ≤ 102) || (65 ≤ c && c ≤ 70)

def hexValue (c : UInt8) : UInt8 :=
  if 48 ≤ c ∧ c ≤ 57 then c - 48 else if 97 ≤ c ∧ c ≤ 102 then c - 97 + 10 else c - 65 + 10

def urldecode : List UInt8 → List UInt8
  | [] => []
  -- `pSrc + 2 < pEnd`
  | c :: high :: low :: src =>
    if c = 37 then
      if isHexChar high && isHexChar low then (hexValue high <<< 4 ||| hexValue low) :: urldecode src
      else c :: urldecode (high :: low :: src)
    else if c = 43 then 32 :: urldecode (high :: low :: src)
    else c :: urldecode (high :: low :: src)
  | c :: src => if c = 43 then 32 :: urldecode src else c :: urldecode src

def urldecodeLen : List UInt8 → Nat
  | [] => 0
  | c :: high :: low :: src =>
    if c = 37 && (isHexChar high && isHexChar low) then urldecodeLen src + 1
    else urldecodeLen (high :: low :: src) + 1
  | _ :: src => urldecodeLen src + 1

variable {c : UInt8} (src : List UInt8)

theorem length_urlencode : (urlencode src).length = urlencodeLen src := by
  induction src with
  | nil => rfl
  | cons c src ih =>
    rw [urlencode, urlencodeLen]
    by_cases hc : unreserved c
    · simp [hc, ih]
    · by_cases hsp : c = 32
      · simp [hsp, ih, show unreserved 32 = false from by decide]
      · simp [hc, hsp, ih]

theorem length_urldecode : (urldecode src).length = urldecodeLen src := by
  fun_induction urldecode src <;> simp_all [urldecodeLen]

theorem hexChars_cases (c : UInt8) :
    let high := hexChars.getD (c >>> 4).toNat 0
    let low := hexChars.getD (c &&& 0x0f).toNat 0
    isHexChar high ∧ isHexChar low ∧ hexValue high <<< 4 ||| hexValue low = c := by
  have hall : ∀ n < 256,
      let high := hexChars.getD (UInt8.ofNat n >>> 4).toNat 0
      let low := hexChars.getD (UInt8.ofNat n &&& 0x0f).toNat 0
      isHexChar high ∧ isHexChar low ∧ hexValue high <<< 4 ||| hexValue low = UInt8.ofNat n := by
    decide +kernel
  have h := hall c.toNat c.toNat_lt
  rwa [UInt8.ofNat_toNat] at h

theorem urldecode_cons (hpct : c ≠ 37) (hplus : c ≠ 43) (src : List UInt8) :
    urldecode (c :: src) = c :: urldecode src := by
  rcases src with _ | ⟨high, _ | ⟨low, src⟩⟩ <;> simp [urldecode, hpct, hplus]

theorem urldecode_plus : urldecode (43 :: src) = 32 :: urldecode src := by
  rcases src with _ | ⟨high, _ | ⟨low, src⟩⟩ <;> simp [urldecode]

theorem ne_of_unreserved (h : unreserved c) : c ≠ 37 ∧ c ≠ 43 := by
  refine ⟨?_, ?_⟩ <;> rintro rfl <;> revert h <;> decide

theorem urldecode_urlencode_eq : urldecode (urlencode src) = src := by
  induction src with
  | nil => rfl
  | cons c src ih =>
    rw [urlencode]
    split
    · rename_i hc
      obtain ⟨hpct, hplus⟩ := ne_of_unreserved hc
      rw [urldecode_cons hpct hplus, ih]
    · split
      · rename_i hsp
        rw [urldecode_plus, ih, hsp]
      · obtain ⟨hhigh, hlow, hval⟩ := hexChars_cases c
        rw [urldecode, if_pos rfl, if_pos (by rw [hhigh, hlow]; rfl), hval, ih]

/-- Decoding gives back what was encoded, and the length functions give the lengths of what the coders produce. -/
theorem urldecode_urlencode :
    (∀ src, urldecode (urlencode src) = src) ∧
      ∀ src, (urlencode src).length = urlencodeLen src ∧ (urldecode src).length = urldecodeLen src :=
  ⟨urldecode_urlencode_eq, fun src => ⟨length_urlencode src, length_urldecode src⟩⟩

-- `100%2`, cut off behind the first digit of an escape, stays as it is.
example : urldecode [49, 48, 48, 37, 50] = [49, 48, 48, 37, 50] ∧ urldecodeLen [49, 48, 48, 37, 50] = 5 := by decide

def h2int (c : UInt8) : UInt8 :=
  if 48 ≤ c ∧ c ≤ 57 then c - 48
  else if 97 ≤ c ∧ c ≤ 102 then c - 97 + 10
  else if 65 ≤ c ∧ c ≤ 70 then c - 65 + 10
  else 0

/-- The memory that `urlrawdecode` is given, its two pointers into it, and the places it has read so far. -/
structure Raw where
  mem : Nat → UInt8
  (urlbuf dst : Nat)
  reads : List Nat

def Raw.store (s : Raw) (c : UInt8) : Raw :=
  { s with mem := Function.update s.mem s.dst c, dst := s.dst + 1, urlbuf := s.urlbuf + 1 }

def Raw.advance (s : Raw) : Raw := { s with urlbuf := s.urlbuf + 1, reads := (s.urlbuf + 1) :: s.reads }

def Raw.body (s : Raw) (c : UInt8) : Raw :=
  if c = 43 then s.store 32
  else if c = 37 then
    let high := s.advance
    let low := high.advance
    low.store (h2int (s.mem high.urlbuf) <<< 4 ||| h2int (s.mem low.urlbuf))
  else s.store c

/-- The loop of `urlrawdecode` and the terminator behind it; `none` is a loop that has not ended
after `fuel` turns. -/
def Raw.loop : Nat → Raw → Option Raw
  | 0, _ => none
  | fuel + 1, s =>
    let c := s.mem s.urlbuf
    let s := { s with reads := s.urlbuf :: s.reads }
    if c = 0 then some { s with mem := Function.update s.mem s.dst 0 } else (s.body c).loop fuel

def urlrawdecode (fuel : Nat) (mem : Nat → UInt8) : Option Raw :=
  Raw.loop fuel { mem := mem, urlbuf := 0, dst := 0, reads := [] }

def Text (mem : Nat → UInt8) : Nat → List UInt8 → Prop
  | p, [] => mem p = 0
  | p, c :: src => c ≠ 0 ∧ mem p = c ∧ Text mem (p + 1) src

/-- The decoder ends on the string of `n` characters at the start of its memory, reads nothing behind the terminator,
and leaves a string that is not longer. -/
def StaysInside (mem : Nat → UInt8) (n : Nat) : Prop :=
  ∃ fuel r, urlrawdecode fuel mem = some r ∧ (∀ i ∈ r.reads, i ≤ n) ∧ ∃ out, Text r.mem 0 out ∧ out.length ≤ n

/-- Two characters stand behind each `%` that is not itself one of the two behind another. -/
def wholeEscapes : List UInt8 → Bool
  | [] => true
  | c :: high :: low :: src => if c = 37 then wholeEscapes src else wholeEscapes (high :: low :: src)
  | c :: src => c ≠ 37 && wholeEscapes src

variable {mem : Nat → UInt8} {p n : Nat} {src : List UInt8} {s r : Raw} {fuel : Nat}

theorem Text.update (h : Text mem p src) {d : Nat} (hd : d < p) (c : UInt8) : Text (Function.update mem d c) p src := by
  induction src generalizing p with
  | nil => rwa [Text, Function.update_of_ne (Nat.ne_of_gt hd)]
  | cons x src ih => exact ⟨h.1, by rw [Function.update_of_ne (Nat.ne_of_gt hd), h.2.1], ih h.2.2 (by omega)⟩

theorem exists_text {k : Nat} (h : mem (p + k) = 0) : ∃ out, Text mem p out ∧ out.length ≤ k := by
  induction k generalizing p with
  | zero => exact ⟨[], h, Nat.le_refl 0⟩
  | succ k ih =>
    by_cases hp : mem p = 0
    · exact ⟨[], hp, Nat.zero_le _⟩
    · obtain ⟨out, hout, hlen⟩ := ih (p := p + 1) (by rwa [Nat.add_assoc, Nat.add_comm 1])
      exact ⟨mem p :: out, ⟨hp, rfl, hout⟩, by simpa using hlen⟩

theorem mem_reads_loop (h : s.loop fuel = some r) {i : Nat} (hi : i ∈ s.reads) : i ∈ r.reads := by
  induction fuel generalizing s with
  | zero => simp [Raw.loop] at h
  | succ fuel ih =>
    rw [Raw.loop] at h
    split at h
    · rw [← Option.some.inj h]
      exact mem_cons_of_mem _ hi
    · refine ih h ?_
      unfold Raw.body
      split
      · exact mem_cons_of_mem _ hi
      · split
        · exact mem_cons_of_mem _ (mem_cons_of_mem _ (mem_cons_of_mem _ hi))
        · exact mem_cons_of_mem _ hi

theorem urlbuf_mem_reads (h : s.loop fuel = some r) : s.urlbuf ∈ r.reads := by
  cases fuel with
  | zero => simp [Raw.loop] at h
  | succ fuel =>
    rw [Raw.loop] at h
    split at h
    · rw [← Option.some.inj h]
      exact mem_cons_self
    · refine mem_reads_loop h ?_
      unfold Raw.body
      split
      · exact mem_cons_self
      · split
        · exact mem_cons_of_mem _ (mem_cons_of_mem _ mem_cons_self)
        · exact mem_cons_self

/-- The loop has `src` still in front of it, which ends at `n`, and has not overtaken itself. -/
structure Raw.At (n : Nat) (s : Raw) (src : List UInt8) : Prop where
  text : Text s.mem s.urlbuf src
  dst_le : s.dst ≤ s.urlbuf
  length : s.urlbuf + src.length = n

theorem Raw.At.plain {c : UInt8} (h : s.At n (c :: src)) (hc : c ≠ 37) :
    ∃ s' : Raw, (∀ fuel, s.loop (fuel + 1) = s'.loop fuel) ∧ s'.At n src ∧ s'.reads = s.urlbuf :: s.reads := by
  obtain ⟨⟨hc0, hmem, htext⟩, hdst, hlen⟩ := h
  have hlt : s.dst < s.urlbuf + 1 := Nat.lt_succ_of_le hdst
  have hend : s.urlbuf + 1 + src.length = n := by rw [← hlen, length_cons]; omega
  refine ⟨Raw.store { s with reads := s.urlbuf :: s.reads } (if c = 43 then 32 else c), fun fuel => ?_,
    ⟨htext.update hlt _, Nat.succ_le_succ hdst, hend⟩, rfl⟩
  rw [Raw.loop, hmem, if_neg hc0, Raw.body, if_neg hc]
  split <;> rfl

theorem Raw.At.escape {high low : UInt8} (h : s.At n (37 :: high :: low :: src)) :
    ∃ s' : Raw, (∀ fuel, s.loop (fuel + 1) = s'.loop fuel) ∧ s'.At n src ∧
      s'.reads = (s.urlbuf + 2) :: (s.urlbuf + 1) :: s.urlbuf :: s.reads := by
  obtain ⟨⟨-, hmem, -, -, -, -, htext⟩, hdst, hlen⟩ := h
  have hend : s.urlbuf + 3 + src.length = n := by rw [← hlen]; simp only [length_cons]; omega
  refine ⟨_, fun fuel => by rw [Raw.loop, hmem, if_neg (by decide)], ⟨?_, ?_, hend⟩, rfl⟩
  · exact htext.update (show s.dst < s.urlbuf + 3 by omega) _
  · exact show s.dst + 1 ≤ s.urlbuf + 3 by omega

theorem Raw.At.ends (h : s.At n src) (hwhole : wholeEscapes src) (hreads : ∀ i ∈ s.reads, i ≤ n) :
    ∃ fuel r, s.loop fuel = some r ∧ (∀ i ∈ r.reads, i ≤ n) ∧ ∃ k ≤ n, r.mem k = 0 := by
  fun_induction wholeEscapes src generalizing s with
  | case1 =>
    have hurl : s.urlbuf = n := h.length
    refine ⟨1, _, by rw [Raw.loop, show s.mem s.urlbuf = 0 from h.text, if_pos rfl], ?_, s.dst, ?_, ?_⟩
    · exact forall_mem_cons.mpr ⟨Nat.le_of_eq hurl, hreads⟩
    · exact hurl ▸ h.dst_le
    · exact Function.update_self ..
  | case2 high low src ih =>
    have hlen := h.length
    obtain ⟨s', hloop, hat, hr⟩ := h.escape
    simp only [length_cons] at hlen
    obtain ⟨fuel, r, hrun⟩ := ih hat hwhole (by
      rw [hr]
      simp only [forall_mem_cons]
      exact ⟨by omega, by omega, by omega, hreads⟩)
    exact ⟨fuel + 1, r, by rwa [hloop]⟩
  | case3 c high low src hc ih =>
    have hlen := h.length
    obtain ⟨s', hloop, hat, hr⟩ := h.plain hc
    obtain ⟨fuel, r, hrun⟩ := ih hat hwhole (hr ▸ forall_mem_cons.mpr ⟨by omega, hreads⟩)
    exact ⟨fuel + 1, r, by rwa [hloop]⟩
  | case4 c src hsrc ih =>
    rw [Bool.and_eq_true, decide_eq_true_eq] at hwhole
    have hlen := h.length
    obtain ⟨s', hloop, hat, hr⟩ := h.plain hwhole.1
    obtain ⟨fuel, r, hrun⟩ := ih hat hwhole.2 (hr ▸ forall_mem_cons.mpr ⟨by omega, hreads⟩)
    exact ⟨fuel + 1, r, by rwa [hloop]⟩

theorem Raw.At.overruns (h : s.At n src) (hcut : wholeEscapes src = false) (hrun : s.loop fuel = some r) :
    n + 1 ∈ r.reads := by
  fun_induction wholeEscapes src generalizing s fuel with
  | case1 => simp at hcut
  | case2 high low src ih =>
    obtain ⟨s', hloop, hat, -⟩ := h.escape
    cases fuel with
    | zero => simp [Raw.loop] at hrun
    | succ fuel => exact ih hat hcut (hloop fuel ▸ hrun)
  | case3 c high low src hc ih =>
    obtain ⟨s', hloop, hat, -⟩ := h.plain hc
    cases fuel with
    | zero => simp [Raw.loop] at hrun
    | succ fuel => exact ih hat hcut (hloop fuel ▸ hrun)
  | case4 c src hsrc ih =>
    cases fuel with
    | zero => simp [Raw.loop] at hrun
    | succ fuel =>
      by_cases hc : c = 37
      · subst hc
        rw [Raw.loop, h.text.2.1, if_neg (by decide)] at hrun
        have hlen := h.length
        rcases src with _ | ⟨x, _ | ⟨y, src⟩⟩
        -- the second character is taken from behind the terminator
        · exact mem_reads_loop hrun (hlen ▸ mem_cons_self)
        -- the terminator is the second character, and the next turn begins behind it
        · exact hlen ▸ urlbuf_mem_reads hrun
        · exact absurd rfl (hsrc x y src)
      · obtain ⟨s', hloop, hat, -⟩ := h.plain hc
        exact ih hat (by simpa [hc] using hcut) (hloop fuel ▸ hrun)

/-- `urlrawdecode` stays inside the string, whatever lies behind the terminator, just if two characters follow each of
its escapes. -/
theorem urlrawdecode_inside_iff (h : Text mem 0 src) : StaysInside mem src.length ↔ wholeEscapes src := by
  have hat : Raw.At src.length { mem := mem, urlbuf := 0, dst := 0, reads := [] } src :=
    ⟨h, Nat.le_refl 0, Nat.zero_add _⟩
  constructor
  · rintro ⟨fuel, r, hrun, hreads, -⟩
    by_contra hcut
    exact absurd (hreads _ (hat.overruns (Bool.eq_false_iff.mpr hcut) hrun)) (Nat.not_succ_le_self _)
  · intro hwhole
    obtain ⟨fuel, r, hrun, hreads, k, hk, hzero⟩ := hat.ends hwhole (forall_mem_nil _)
    obtain ⟨out, hout, hlen⟩ := exists_text (p := 0) (by rwa [Nat.zero_add])
    exact ⟨fuel, r, hrun, hreads, out, hout, Nat.le_trans hlen hk⟩

def escaped : Nat → UInt8 := fun i => [97, 37, 52, 49].getD i 0

theorem escaped_inside : Text escaped 0 [97, 37, 52, 49] ∧ StaysInside escaped 4 := by
  have h : Text escaped 0 [97, 37, 52, 49] := by simp [Text, escaped]
  exact ⟨h, (urlrawdecode_inside_iff h).mpr (by decide)⟩

def cut : Nat → UInt8 := fun i => [97, 37, 0, 98].getD i 0

/-- The string of `cut` ends at its second place, and the fourth one is read. -/
theorem cut_overruns : Text cut 0 [97, 37] ∧ ¬ StaysInside cut 2 := by
  have h : Text cut 0 [97, 37] := by simp [Text, cut]
  refine ⟨h, ?_⟩
  rintro ⟨fuel, r, hrun, hreads, -⟩
  have hat : Raw.At 2 { mem := cut, urlbuf := 0, dst := 0, reads := [] } [97, 37] := ⟨h, Nat.le_refl 0, rfl⟩
  exact absurd (hreads _ (hat.overruns (by decide) hrun)) (by decide)

end NuttxApps.Url
