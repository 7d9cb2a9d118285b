import NuttxApps.Settings.LoadText

/-!
# A printed value read back

`load_text` infers a value from a text that `save_text` has printed and that may have lost its end (`t.take n`). An
integer, a boolean and a string need their whole text, and a string has to look like one.
-/

namespace NuttxApps.Settings

open CString Libc Option
open List hiding min max

def digits (n : Nat) : List UInt8 := chars (Nat.toDigits 10 n)

theorem decimal_eq (i : Int) : decimal i = if i < 0 then 45 :: digits i.natAbs else digits i.natAbs := by
  rw [decimal]
  split <;> rfl

variable {t : List UInt8} {s s' : List UInt8} (ip : InAddr) (ds : List UInt8) (n : Nat)

@[simp] theorem decimal_natCast : decimal n = digits n := by
  rw [decimal_eq, if_neg (by omega), Int.natAbs_natCast]

theorem digits_ne_nil : digits n ≠ [] := by
  simp [digits, chars]

theorem digitsVal_digits : digitsVal (digits n) = n := by
  induction n using Nat.strongRecOn with
  | ind n ih =>
    have hd : ∀ d < 10, (d.digitChar.toUInt8).toNat - 48 = d := by decide
    rw [digits, Nat.toDigits_eq_if (by decide)]
    split
    · simp [chars, digitsVal, hd n ‹_›]
    · rw [chars, map_append, map_singleton, digitsVal_append, hd _ (Nat.mod_lt _ (by decide))]
      have := ih (n / 10) (by omega)
      rw [digits, chars] at this
      omega

theorem isdigit_of_mem_digits {n : Nat} {c : UInt8} (h : c ∈ digits n) : isdigit c := by
  obtain ⟨x, hx, rfl⟩ := mem_map.mp h
  have hd := Nat.isDigit_of_mem_toDigits (by decide) (by decide) hx
  simp only [Char.isDigit, Bool.and_eq_true, decide_eq_true_eq, UInt32.le_iff_toNat_le] at hd
  have hdec : ∀ k ≤ 57, 48 ≤ k → isdigit (.ofNat k) := by decide
  exact hdec x.toNat hd.2 hd.1

theorem length_digits_le_iff {n k : Nat} (hk : 0 < k) : (digits n).length ≤ k ↔ n < 10 ^ k := by
  rw [digits, chars, length_map, Nat.length_toDigits_le_iff (by decide) hk]

theorem length_digits_digitsVal_le {ds : List UInt8} (hne : ds ≠ []) (hds : ∀ c ∈ ds, isdigit c) :
    (digits (digitsVal ds)).length ≤ ds.length :=
  (length_digits_le_iff (length_pos_iff.mpr hne)).mpr (digitsVal_lt hds)

theorem isdigit_facts {c : UInt8} (h : isdigit c) :
    isspace c = false ∧ isalpha c = false ∧ c ≠ 45 ∧ c ≠ 43 ∧ c ≠ 46 := by
  have hdec : ∀ k < 256, isdigit (.ofNat k) → isspace (.ofNat k) = false ∧
      isalpha (.ofNat k) = false ∧ UInt8.ofNat k ≠ 45 ∧ UInt8.ofNat k ≠ 43 ∧ UInt8.ofNat k ≠ 46 := by
    decide +kernel
  simpa using hdec c.toNat c.toNat_lt (by simpa using h)

theorem takeWhile_isdigit {ds : List UInt8} (rest : List UInt8) (hds : ∀ c ∈ ds, isdigit c)
    (hr : isdigit (rest.headD 0) = false) :
    (ds ++ rest).takeWhile isdigit = ds ∧ (ds ++ rest).dropWhile isdigit = rest := by
  rw [takeWhile_append_of_pos hds, dropWhile_append_of_pos hds]
  cases rest with
  | nil => simp
  | cons c rest => simp_all

theorem takeWhile_digits : (digits n).takeWhile isdigit = digits n :=
  takeWhile_eq_self_iff.mpr fun _ => isdigit_of_mem_digits

theorem exists_cons_digits : ∃ c s, digits n = c :: s ∧ isdigit c := by
  obtain ⟨c, s, h⟩ := exists_cons_of_ne_nil (digits_ne_nil n)
  exact ⟨c, s, h, isdigit_of_mem_digits (h ▸ mem_cons_self)⟩

theorem scanInt_digits : scanInt (digits n) = some (.ofInt (max (-2147483648) (min 2147483647 n))) := by
  obtain ⟨c, s, h, hc⟩ := exists_cons_digits n
  obtain ⟨hsp, -, h45, h43, -⟩ := isdigit_facts hc
  have hdrop : (digits n).dropWhile isspace = digits n := by simp [h, hsp]
  have hhead : (digits n).head? = some c := by simp [h]
  have htake := takeWhile_digits n
  simp [scanInt, hdrop, hhead, h45, h43, htake, digits_ne_nil, digitsVal_digits]

theorem scanInt_neg_digits : scanInt (45 :: digits n) = some (.ofInt (max (-2147483648) (min 2147483647 (-n)))) := by
  have htake := takeWhile_digits n
  have hsp : isspace 45 = false := by decide
  simp [scanInt, hsp, htake, digits_ne_nil, digitsVal_digits]

theorem scanInt_decimal (i : Int32) : scanInt (decimal i.toInt) = some i := by
  have h₁ := i.le_toInt
  have h₂ := i.toInt_lt
  rw [decimal_eq]
  split
  · rw [scanInt_neg_digits, show -(i.toInt.natAbs : Int) = i.toInt by omega,
      show max (-2147483648) (min 2147483647 i.toInt) = i.toInt by omega, Int32.ofInt_toInt]
  · rw [scanInt_digits, show (i.toInt.natAbs : Int) = i.toInt by omega,
      show max (-2147483648) (min 2147483647 i.toInt) = i.toInt by omega, Int32.ofInt_toInt]

theorem toInt_clamp (z : Int) :
    (Int32.ofInt (max (-2147483648) (min 2147483647 z))).toInt = max (-2147483648) (min 2147483647 z) :=
  Int32.toInt_ofInt_of_le (by omega) (by omega)

theorem length_decimal_le {i : Int32} (h : scanInt t = some i) : (decimal i.toInt).length ≤ t.length := by
  simp only [scanInt] at h
  generalize hs : t.dropWhile isspace = s at h
  have hst : s.length ≤ t.length := hs ▸ (dropWhile_suffix _).length_le
  generalize hneg : (s.head? == some 45) = neg at h
  generalize hu : (if (neg || s.head? == some 43) = true then s.tail else s) = u at h
  have hds : ∀ c ∈ u.takeWhile isdigit, isdigit c := fun c hc => (mem_takeWhile_imp hc)
  have hdu : (u.takeWhile isdigit).length ≤ u.length := ( takeWhile_prefix _).length_le
  generalize u.takeWhile isdigit = ds at h hds hdu
  have hus : u.length ≤ s.length := by subst hu; split <;> simp
  split at h
  · cases h
  rename_i hne
  have hpos := length_pos_iff.mpr hne
  have hval := digitsVal_lt hds
  rw [some.injEq] at h
  subst h
  rw [toInt_clamp]
  generalize digitsVal ds = v at hval
  cases hn : neg with
  | false =>
    -- without a minus sign the number is not negative
    rw [if_neg (by simp), decimal_eq, if_neg (by omega)]
    have := (length_digits_le_iff (n := (max (-2147483648) (min 2147483647 (v : Int))).natAbs) hpos).mpr
      (by omega)
    omega
  | true =>
    have hsu : u.length + 1 = s.length := by
      obtain ⟨c, s, rfl⟩ : ∃ c s', s = c :: s' := by
        cases s with
        | nil => simp [← hneg] at hn
        | cons c s => exact ⟨c, s, rfl⟩
      subst hu
      simp [hn]
    have := (length_digits_le_iff (n := (max (-2147483648) (min 2147483647 (-(v : Int)))).natAbs) hpos).mpr
      (by omega)
    rw [if_pos rfl, decimal_eq]
    split
    · rw [length_cons]
      omega
    · omega

theorem octet_digits (a : UInt8) {rest : List UInt8} (hr : isdigit (rest.headD 0) = false) :
    octet (digits a.toNat ++ rest) = some (a, rest) := by
  have ha := a.toNat_lt
  obtain ⟨htake, hdrop⟩ := takeWhile_isdigit rest (fun _ => isdigit_of_mem_digits) hr
  have hlen : (digits a.toNat).length ≤ 3 := (length_digits_le_iff (by decide)).mpr (by omega)
  rw [octet, htake, hdrop, if_pos ⟨digits_ne_nil _, hlen, by rw [digitsVal_digits]; omega⟩,
    digitsVal_digits, UInt8.ofNat_toNat]

theorem dot_cons (s : List UInt8) : dot (46 :: s) = some s := rfl

def ipHead : List UInt8 :=
  digits ip.a.toNat ++ 46 :: (digits ip.b.toNat ++ 46 :: (digits ip.c.toNat ++ [46]))

theorem inetNtop_eq : inetNtop ip = ipHead ip ++ digits ip.d.toNat := by
  have hdot : chars ['.'] = [46] := rfl
  simp [inetNtop, ipHead, hdot]

theorem inetPton_head (t : List UInt8) :
    inetPton (ipHead ip ++ t) =
      (octet t).bind fun (d, s) => if s = [] then some ⟨ip.a, ip.b, ip.c, d⟩ else none := by
  have hdot : isdigit 46 = false := by decide
  simp only [inetPton, ipHead, append_assoc, cons_append, nil_append]
  simp only [octet_digits _ (show isdigit ((46 :: _).headD 0) = false from hdot), dot_cons, bind_eq_bind, bind_some]

theorem inetPton_inetNtop : inetPton (inetNtop ip) = some ip := by
  rw [inetNtop_eq, inetPton_head]
  have hlast := octet_digits ip.d (show isdigit (([] : List UInt8).headD 0) = false from rfl)
  rw [append_nil] at hlast
  simp [hlast]

theorem length_of_octet {a : UInt8} (h : octet s = some (a, s')) : (digits a.toNat).length + s'.length ≤ s.length := by
  rw [octet] at h
  split at h
  · rename_i hd
    obtain ⟨hne, -, hval⟩ := hd
    cases h
    have hle := length_digits_digitsVal_le hne fun _ hc => mem_takeWhile_imp hc
    have hlen := congrArg List.length (takeWhile_append_dropWhile (p := isdigit) (l := s))
    rw [length_append] at hlen
    rw [UInt8.toNat_ofNat', Nat.mod_eq_of_lt (by omega)]
    omega
  · cases h

theorem length_of_dot (h : dot s = some s') : s'.length + 1 = s.length := by
  rw [dot] at h
  split at h
  · rename_i hd
    cases h
    cases s with
    | nil => cases hd
    | cons c s => rfl
  · cases h

theorem length_inetNtop_le {ip : InAddr} (h : inetPton t = some ip) : (inetNtop ip).length ≤ t.length := by
  simp only [inetPton, bind_eq_bind, bind_eq_some_iff, Prod.exists] at h
  obtain ⟨a, s₁, h₁, s₂, h₂, b, s₃, h₃, s₄, h₄, c, s₅, h₅, s₆, h₆, d, s₇, h₇, h⟩ := h
  split at h
  · cases h
    have := length_of_octet h₁
    have := length_of_dot h₂
    have := length_of_octet h₃
    have := length_of_dot h₄
    have := length_of_octet h₅
    have := length_of_dot h₆
    have := length_of_octet h₇
    simp only [inetNtop_eq, ipHead, length_append, length_cons, length_nil]
    omega
  · cases h

@[simp] theorem count_digits : (digits n).count 46 = 0 :=
  count_eq_zero.mpr fun h => (isdigit_facts (isdigit_of_mem_digits h)).2.2.2.2 rfl

theorem count_ipHead : (ipHead ip).count 46 = 3 := by
  simp [ipHead]

theorem count_inetNtop : (inetNtop ip).count 46 = 3 := by
  rw [inetNtop_eq, count_append, count_ipHead, count_digits]

theorem digitsVal_take_le : digitsVal (ds.take n) ≤ digitsVal ds := by
  have hfold : ∀ (s : List UInt8) (m : Nat), m ≤ s.foldl (fun n c => 10 * n + (c.toNat - 48)) m := by
    intro s
    induction s with
    | nil => exact fun m => Nat.le_refl m
    | cons c s ih =>
      intro m
      have := ih (10 * m + (c.toNat - 48))
      simp only [foldl_cons]
      omega
  conv => rhs; rw [← take_append_drop n ds]
  rw [digitsVal, digitsVal, foldl_append]
  exact hfold _ _

/-- An address that is cut and still has three dots is refused only where it is cut
right behind the third. -/
theorem inetPton_cut {ip : InAddr} {n : Nat} (hdots : ((inetNtop ip).take n).count 46 = 3) :
    (inetNtop ip).take n = ipHead ip ∧ n = (ipHead ip).length ∨
      ∃ ip', inetPton ((inetNtop ip).take n) = some ip' := by
  rw [inetNtop_eq] at *
  rw [take_append] at *
  rcases lt_or_ge n (ipHead ip).length with hlt | hge
  · -- the third dot is the last byte of the head, so one of the dots is missing
    exfalso
    obtain ⟨p, hp⟩ : ∃ p, ipHead ip = p ++ [46] :=
      ⟨digits ip.a.toNat ++ 46 :: (digits ip.b.toNat ++ 46 :: digits ip.c.toNat), by simp [ipHead]⟩
    have hcount := count_ipHead ip
    rw [hp, length_append, length_singleton] at hlt
    rw [hp, count_append] at hcount
    rw [hp, length_append, length_singleton, show n - (p.length + 1) = 0 by omega,
      take_zero, append_nil, take_append_of_le_length (by omega)] at hdots
    have hle := (take_sublist n p).count_le 46
    rw [count_singleton_self] at hcount
    omega
  · rw [take_of_length_le (l := ipHead ip) hge]
    rcases eq_or_lt_of_le hge with heq | hgt
    · left
      simp [← heq]
    · right
      rw [inetPton_head]
      generalize hm : n - (ipHead ip).length = m
      have hds : ∀ c ∈ (digits ip.d.toNat).take m, isdigit c :=
        fun c hc => isdigit_of_mem_digits (mem_of_mem_take hc)
      obtain ⟨htake, hdrop⟩ := takeWhile_isdigit [] hds rfl
      rw [append_nil] at htake hdrop
      have hd := ip.d.toNat_lt
      have hval := digitsVal_take_le (digits ip.d.toNat) m
      rw [digitsVal_digits] at hval
      have hlen : (digits ip.d.toNat).length ≤ 3 := (length_digits_le_iff (by decide)).mpr (by omega)
      have hne : (digits ip.d.toNat).take m ≠ [] := by
        simp only [ne_eq, take_eq_nil_iff, digits_ne_nil, or_false]
        omega
      rw [octet, htake, hdrop, if_pos ⟨hne, by rw [length_take]; omega, by omega⟩]
      exact ⟨_, rfl⟩

variable {F : Type} {env : Env F} {cfg : Config} {t : List UInt8} {n : Nat}

def LooksLikeString (s : List UInt8) : Prop :=
  isalpha (s.headD 0) ∧ ¬ strcasecmp s (chars ['t', 'r', 'u', 'e']) ∧
    ¬ strcasecmp s (chars ['f', 'a', 'l', 's', 'e'])

instance (s : List UInt8) : Decidable (LooksLikeString s) := inferInstanceAs (Decidable (_ ∧ _))

def Inferred (env : Env F) (t : List UInt8) : Val F → Prop
  | .int i => scanInt t = some i
  | .bool i => strcasecmp t (chars ['t', 'r', 'u', 'e']) ∧ i = 1 ∨
      strcasecmp t (chars ['f', 'a', 'l', 's', 'e']) ∧ i = 0
  | .string s => s = t ∧ LooksLikeString t
  | .ipAddr ip => t.count 46 = 3 ∧ (inetPton t).getD (env.ptonFail t ⟨0, 0, 0, 0⟩) = ip
  | .empty => True
  | .float _ => True

theorem inferred_of_parseValue {v : Val F} (h : parseValue env cfg .empty t = some v) : Inferred env t v := by
  unfold parseValue at h
  split at h
  · rename_i ha
    split at h
    · rename_i htrue
      cases h
      exact .inl ⟨htrue, rfl⟩
    split at h
    · rename_i hfalse
      cases h
      exact .inr ⟨hfalse, rfl⟩
    split at h
    · cases h
    · rename_i htrue hfalse _
      cases h
      exact ⟨rfl, ha, htrue, hfalse⟩
  split at h
  · split at h
    · cases h
      cases env.scanFloat t <;> trivial
    split_ifs at h with h3
    · cases h
      exact ⟨h3, rfl⟩
    · cases h
      trivial
  · cases h
    cases hs : scanInt t <;> trivial

theorem headD_take (s : List UInt8) (hn : 0 < n) : (s.take n).headD 0 = s.headD 0 := by
  cases s with
  | nil => simp
  | cons c s =>
    obtain ⟨m, rfl⟩ := Nat.exists_eq_add_of_lt hn
    simp

theorem parseValue_int (env : Env F) (cfg : Config) (i : Int32) (n : Nat) :
    parseValue env cfg .empty ((decimal i.toInt).take n) = some (.int i) ↔
      (decimal i.toInt).length ≤ n := by
  constructor
  · intro h
    have := length_decimal_le (inferred_of_parseValue h)
    rw [length_take] at this
    omega
  · intro h
    rw [take_of_length_le h]
    have hc : ∀ c ∈ decimal i.toInt, c = 45 ∨ isdigit c := by
      intro c hc
      rw [decimal_eq] at hc
      split at hc
      · rcases mem_cons.mp hc with rfl | hc
        · exact .inl rfl
        · exact .inr (isdigit_of_mem_digits hc)
      · exact .inr (isdigit_of_mem_digits hc)
    have hdot : 46 ∉ decimal i.toInt := by
      intro hmem
      rcases hc 46 hmem with h | h
      · cases h
      · exact (isdigit_facts h).2.2.2.2 rfl
    have halpha : isalpha ((decimal i.toInt).headD 0) = false := by
      cases hd : decimal i.toInt with
      | nil => rfl
      | cons c s =>
        rcases hc c (by simp [hd]) with rfl | h
        · rfl
        · exact (isdigit_facts h).2.1
    rw [parseValue, if_neg (by rw [halpha]; decide), if_neg hdot, scanInt_decimal]
    rfl

theorem length_of_strcasecmp {s t : List UInt8} (h : strcasecmp s t) : s.length = t.length := by
  have := congrArg List.length (beq_iff_eq.mp h)
  simpa using this

theorem parseValue_bool (env : Env F) (cfg : Config) {i : Int32} (hi : i = 0 ∨ i = 1) (n : Nat) :
    parseValue env cfg .empty (((Val.bool i : Val F).text env.fmt06f).take n) = some (.bool i) ↔
      ((Val.bool i : Val F).text env.fmt06f).length ≤ n := by
  constructor
  · intro h
    have := inferred_of_parseValue h
    rcases hi with rfl | rfl
    · rcases this with ⟨-, h⟩ | ⟨hs, -⟩
      · cases h
      · have := length_of_strcasecmp hs
        rw [length_take] at this
        change _ = 5 at this
        change 5 ≤ n
        omega
    · rcases this with ⟨hs, -⟩ | ⟨-, h⟩
      · have := length_of_strcasecmp hs
        rw [length_take] at this
        change _ = 4 at this
        change 4 ≤ n
        omega
      · cases h
  · intro h
    rw [take_of_length_le h]
    rcases hi with rfl | rfl <;> rfl

theorem parseValue_string (env : Env F) {cfg : Config} {s : List UInt8} (hs : s.length < cfg.valueSize) (n : Nat) :
    parseValue env cfg .empty (s.take n) = some (.string s) ↔
      LooksLikeString s ∧ s.length ≤ n := by
  constructor
  · intro h
    obtain ⟨hst, hlook⟩ := inferred_of_parseValue h
    have hlen := congrArg List.length hst
    rw [length_take] at hlen
    rw [← hst] at hlook
    exact ⟨hlook, by omega⟩
  · rintro ⟨⟨ha, ht, hf⟩, h⟩
    rw [take_of_length_le h, parseValue, if_pos ha, if_neg ht, if_neg hf, if_neg (by omega)]

theorem parseValue_ipAddr (env : Env F) (cfg : Config) (ip : InAddr) (n : Nat) :
    parseValue env cfg .empty ((inetNtop ip).take n) = some (.ipAddr ip) ↔
      (inetNtop ip).length ≤ n ∨
        n = (ipHead ip).length ∧ env.ptonFail (ipHead ip) ⟨0, 0, 0, 0⟩ = ip := by
  have hparse : ∀ t : List UInt8, t.headD 0 = (inetNtop ip).headD 0 → t.count 46 = 3 →
      parseValue env cfg .empty t =
        some (.ipAddr ((inetPton t).getD (env.ptonFail t ⟨0, 0, 0, 0⟩))) := by
    intro t hhead h3
    obtain ⟨c, s, hcs, hc⟩ := exists_cons_digits ip.a.toNat
    have halpha : isalpha (t.headD 0) = false := by
      rw [hhead, inetNtop_eq, ipHead, hcs]
      exact (isdigit_facts hc).2.1
    have hmem : 46 ∈ t := count_pos_iff.mp (by omega)
    rw [parseValue, if_neg (by rw [halpha]; decide), if_pos hmem, if_neg (by omega), if_pos h3]
    rfl
  have hpos : 0 < (ipHead ip).length := by
    simp only [ipHead, length_append, length_cons]
    omega
  constructor
  · intro h
    obtain ⟨h3, hip⟩ := inferred_of_parseValue h
    rcases lt_or_ge n (inetNtop ip).length with hn | hn
    · right
      cases hp : inetPton ((inetNtop ip).take n) with
      | some ip' =>
        -- a shorter text is not read as the address
        rw [hp, getD_some] at hip
        have := length_inetNtop_le (hip ▸ hp)
        rw [length_take] at this
        omega
      | none =>
        rw [hp, getD_none] at hip
        rcases inetPton_cut h3 with ⟨ht, hlen⟩ | ⟨ip', h'⟩
        · exact ⟨hlen, ht ▸ hip⟩
        · rw [hp] at h'
          cases h'
    · exact .inl hn
  · rintro (h | ⟨rfl, h⟩)
    · rw [take_of_length_le h, hparse _ rfl (count_inetNtop ip), inetPton_inetNtop]
      rfl
    · have htake : (inetNtop ip).take (ipHead ip).length = ipHead ip := by
        rw [inetNtop_eq]
        simp
      have hnone : inetPton (ipHead ip) = none := by
        have := inetPton_head ip []
        rw [append_nil] at this
        rw [this]
        rfl
      have hhead : (ipHead ip).headD 0 = (inetNtop ip).headD 0 := by
        rw [← htake, headD_take _ hpos]
      rw [htake, hparse _ hhead (count_ipHead ip), hnone, getD_none, h]

end NuttxApps.Settings
