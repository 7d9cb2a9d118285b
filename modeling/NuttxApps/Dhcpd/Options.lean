import NuttxApps.Framework.Bytes
import NuttxApps.Framework.Tlv

/-!
# The options of a DHCP message

One loop of `dhcpd_parseoptions` runs over the `options` field; where the overload option says so, END restarts it in
the `file` field, and from there in `sname`. In the `options` field (`loop_options`) an option is stored if at least one
byte follows it in the field.
-/

namespace NuttxApps.Dhcpd

open Tlv List

inductive Field
  | options
  | file
  | sname
deriving DecidableEq

def Field.start : Field → Nat
  | .sname => 44
  | .file => 108
  | .options => 236

def Field.size : Field → Nat
  | .sname => 64
  | .file => 128
  | .options => 312

structure Opts where
  msgtype : UInt8
  (reqip serverip leasetime : Nat)
deriving DecidableEq

/-- With the value of the overload option, 0 where absent. -/
structure Parsed extends Opts where
  overloaded : UInt8
deriving DecidableEq

def Parsed.zero : Parsed := ⟨⟨0, 0, 0, 0⟩, 0⟩

def bytesAt (mem : Nat → UInt8) (a n : Nat) : List UInt8 := (List.range n).map fun i => mem (a + i)

variable (bs : List UInt8)

def ntohl : Nat := bs.foldl (fun x b => 256 * x + b.toNat) 0

def magiccookie : List UInt8 := [99, 130, 83, 99]

/-- How many bytes of its data are read of an option, and where they are stored. -/
def stored (code : UInt8) : Nat × (List UInt8 → Parsed → Parsed) :=
  if code = 50 then (4, fun bs a => { a with reqip := ntohl bs })
  else if code = 51 then (4, fun bs a => { a with leasetime := ntohl bs })
  else if code = 52 then (1, fun bs a => { a with overloaded := bs.headD 0 })
  else if code = 53 then (1, fun bs a => { a with msgtype := bs.headD 0 })
  else if code = 54 then (4, fun bs a => { a with serverip := ntohl bs })
  else (0, fun _ a => a)

/-- The state of the loop; the source tests `remaining`, a signed number, for being positive only. -/
structure Scan where
  (ptr remaining optlen : Nat)
  currfield : Field
  vals : Parsed
  reads : List (Field × Nat)

def Scan.touch (s : Scan) (i n : Nat) : Scan :=
  { s with reads := (List.range n).map (fun j => (s.currfield, s.ptr + i + j)) ++ s.reads }

def Scan.enter (s : Scan) (f : Field) : Scan := { s with ptr := f.start, remaining := f.size, currfield := f }

def Scan.advance (s : Scan) : Scan := { s with ptr := s.ptr + s.optlen, remaining := s.remaining - s.optlen }

section

variable (mem : Nat → UInt8)

/-- An option with a length; it is stored if it has enough data and ends before the field. -/
def option (s : Scan) : Scan :=
  let o := stored (mem s.ptr)
  let optlen := (mem (s.ptr + 1)).toNat + 2
  if o.1 + 2 ≤ optlen ∧ optlen < s.remaining then
    { (s.touch 1 1).touch 2 o.1 with optlen := optlen, vals := o.2 (bytesAt mem (s.ptr + 2) o.1) s.vals }
  else { s.touch 1 1 with optlen := optlen }

/-- The `switch` on the code of the option; `none` where the function returns true. -/
def switch (s : Scan) : Option Scan :=
  if mem s.ptr = 0 then some { s with optlen := 1 }
  else if mem s.ptr = 255 then
    if s.currfield = .options ∧ s.vals.overloaded &&& 1 ≠ 0 then some (s.enter .file)
    else if s.currfield = .file ∧ s.vals.overloaded &&& 2 ≠ 0 then some (s.enter .sname)
    else none
  else some (option mem s)

def loop : Nat → Scan → Option (Bool × Scan)
  | 0, _ => none
  | fuel + 1, s =>
    match switch mem (s.touch 0 1) with
    | none => some (true, s.touch 0 1)
    | some s => if 0 < s.advance.remaining then loop fuel s.advance else some (false, s.advance)

def begin : Scan := ⟨Field.options.start + 4, Field.options.size - 4, 0, .options, .zero, []⟩

/-- `dhcpd_parseoptions`: the return value, the values stored (`old` without the magic cookie) and the reads. Every
round reads a byte of one of the three fields. -/
def parseoptions (old : Opts) : Option (Bool × Opts × List (Field × Nat)) :=
  let check := (List.range 4).map fun i => (Field.options, Field.options.start + i)
  if bytesAt mem Field.options.start 4 = magiccookie then
    (loop mem (Field.options.size + Field.file.size + Field.sname.size) begin).map
      fun (ok, s) => (ok, s.vals.toOpts, s.reads ++ check)
  else some (false, old, check)

end

variable {mem mem' : Nat → UInt8} {s s' : Scan} {ok : Bool} {fuel : Nat}

section

variable (mem : Nat → UInt8)

@[simp] theorem length_bytesAt (a n : Nat) : (bytesAt mem a n).length = n :=
  Bytes.length_bytesAt mem a n

theorem bytesAt_append (a m n : Nat) : bytesAt mem a (m + n) = bytesAt mem a m ++ bytesAt mem (a + m) n :=
  Bytes.bytesAt_append mem a m n

theorem bytesAt_succ (a n : Nat) : bytesAt mem a (n + 1) = mem a :: bytesAt mem (a + 1) n := by
  rw [add_comm n, bytesAt_append]
  rfl

theorem drop_bytesAt (a k n : Nat) : (bytesAt mem a (k + n)).drop k = bytesAt mem (a + k) n :=
  Bytes.drop_bytesAt mem a k n

theorem take_bytesAt (a k n : Nat) : (bytesAt mem a (k + n)).take k = bytesAt mem a k :=
  Bytes.take_bytesAt mem a k n

end

def put (a : Parsed) (o : UInt8 × List UInt8) : Parsed :=
  if (stored o.1).1 ≤ o.2.length then (stored o.1).2 (o.2.take (stored o.1).1) a else a

def Inside (reads : List (Field × Nat)) : Prop :=
  ∀ p ∈ reads, p.1.start ≤ p.2 ∧ p.2 < p.1.start + p.1.size

/-- An option with a length: `k` bytes of its data are read, none where it does not end before the field. -/
theorem option_eq (mem : Nat → UInt8) (s : Scan) :
    ∃ k, (k = 0 ∨ k ≤ (mem (s.ptr + 1)).toNat ∧ (mem (s.ptr + 1)).toNat + 2 < s.remaining) ∧
      option mem s =
        { (s.touch 1 1).touch 2 k with
          optlen := (mem (s.ptr + 1)).toNat + 2
          vals :=
            if (mem (s.ptr + 1)).toNat + 2 < s.remaining then
              put s.vals (mem s.ptr, bytesAt mem (s.ptr + 2) (mem (s.ptr + 1)).toNat)
            else s.vals } := by
  rw [option]
  by_cases hlt : (mem (s.ptr + 1)).toNat + 2 < s.remaining
  · by_cases hle : (stored (mem s.ptr)).1 ≤ (mem (s.ptr + 1)).toNat
    · refine ⟨_, .inr ⟨hle, hlt⟩, ?_⟩
      obtain ⟨k, hk⟩ := Nat.exists_eq_add_of_le hle
      rw [hk] at hlt
      simp [put, hlt, hk, take_bytesAt]
    · refine ⟨0, .inl rfl, ?_⟩
      simp [put, hlt, hle, Scan.touch]
  · refine ⟨0, .inl rfl, ?_⟩
    simp [hlt, Scan.touch]

section

variable (mem : Nat → UInt8) (s : Scan)

@[simp] theorem option_ptr : (option mem s).ptr = s.ptr := by
  obtain ⟨k, -, h⟩ := option_eq mem s
  rw [h]
  rfl

@[simp] theorem option_remaining : (option mem s).remaining = s.remaining := by
  obtain ⟨k, -, h⟩ := option_eq mem s
  rw [h]
  rfl

@[simp] theorem option_currfield : (option mem s).currfield = s.currfield := by
  obtain ⟨k, -, h⟩ := option_eq mem s
  rw [h]
  rfl

@[simp] theorem option_optlen : (option mem s).optlen = (mem (s.ptr + 1)).toNat + 2 := by
  obtain ⟨k, -, h⟩ := option_eq mem s
  rw [h]

theorem option_vals :
    (option mem s).vals =
      if (mem (s.ptr + 1)).toNat + 2 < s.remaining then
        put s.vals (mem s.ptr, bytesAt mem (s.ptr + 2) (mem (s.ptr + 1)).toNat)
      else s.vals := by
  obtain ⟨k, -, h⟩ := option_eq mem s
  rw [h]

@[simp] theorem touch_ptr (i n : Nat) : (s.touch i n).ptr = s.ptr := rfl

@[simp] theorem touch_remaining (i n : Nat) : (s.touch i n).remaining = s.remaining := rfl

@[simp] theorem advance_ptr : s.advance.ptr = s.ptr + s.optlen := rfl

@[simp] theorem advance_remaining : s.advance.remaining = s.remaining - s.optlen := rfl

@[simp] theorem advance_vals : s.advance.vals = s.vals := rfl

end

theorem mem_touch {i n : Nat} {p : Field × Nat} :
    p ∈ (s.touch i n).reads ↔ (p.1 = s.currfield ∧ s.ptr + i ≤ p.2 ∧ p.2 < s.ptr + i + n) ∨ p ∈ s.reads := by
  obtain ⟨f, a⟩ := p
  simp only [Scan.touch, mem_append, mem_map, mem_range, Prod.mk.injEq]
  refine or_congr_left ⟨?_, ?_⟩
  · rintro ⟨j, hj, rfl, rfl⟩
    exact ⟨rfl, by omega, by omega⟩
  · rintro ⟨rfl, hlo, hhi⟩
    exact ⟨a - (s.ptr + i), by omega, rfl, by omega⟩

theorem switch_cases (mem : Nat → UInt8) (s : Scan) :
    mem s.ptr = 0 ∧ switch mem s = some { s with optlen := 1 } ∨
    mem s.ptr = 255 ∧ switch mem s = none ∨
    (∃ f, mem s.ptr = 255 ∧ switch mem s = some (s.enter f) ∧
      (s.currfield = .options ∧ f = .file ∧ s.vals.overloaded &&& 1 ≠ 0 ∨
        s.currfield = .file ∧ f = .sname ∧ s.vals.overloaded &&& 2 ≠ 0)) ∨
    mem s.ptr ≠ 0 ∧ mem s.ptr ≠ 255 ∧ switch mem s = some (option mem s) := by
  rw [switch]
  split_ifs with h₀ h₂₅₅ hfile hsname
  · exact .inl ⟨h₀, rfl⟩
  · exact .inr (.inr (.inl ⟨_, h₂₅₅, rfl, .inl ⟨hfile.1, rfl, hfile.2⟩⟩))
  · exact .inr (.inr (.inl ⟨_, h₂₅₅, rfl, .inr ⟨hsname.1, rfl, hsname.2⟩⟩))
  · exact .inr (.inl ⟨h₂₅₅, rfl⟩)
  · exact .inr (.inr (.inr ⟨h₀, h₂₅₅, rfl⟩))

theorem reads_subset_touch (s : Scan) (i n : Nat) : s.reads ⊆ (s.touch i n).reads :=
  subset_append_right _ _

theorem reads_subset_option (mem : Nat → UInt8) (s : Scan) : (s.touch 1 1).reads ⊆ (option mem s).reads := by
  obtain ⟨k, -, h⟩ := option_eq mem s
  rw [h]
  exact reads_subset_touch _ 2 k

theorem reads_subset_switch (h : switch mem s = some s') : s.reads ⊆ s'.reads := by
  rcases switch_cases mem s with ⟨-, h'⟩ | ⟨-, h'⟩ | ⟨f, -, h', -⟩ | ⟨-, -, h'⟩ <;> rw [h'] at h <;> cases h
  · exact fun _ h => h
  · exact fun _ h => h
  · exact fun _ h => reads_subset_option mem s (reads_subset_touch s 1 1 h)

theorem loop_of_return (h : loop mem (fuel + 1) s = some (ok, s')) (ht : switch mem (s.touch 0 1) = none) :
    s' = s.touch 0 1 := by
  rw [loop, ht] at h
  cases h
  rfl

theorem loop_of_switch {t : Scan} (h : loop mem (fuel + 1) s = some (ok, s')) (ht : switch mem (s.touch 0 1) = some t) :
    t.optlen < t.remaining ∧ loop mem fuel t.advance = some (ok, s') ∨
      t.remaining ≤ t.optlen ∧ s' = t.advance := by
  rw [loop, ht] at h
  dsimp only at h
  split_ifs at h with hlt
  · exact .inl ⟨Nat.lt_of_sub_pos hlt, h⟩
  · cases h
    exact .inr ⟨Nat.le_of_sub_eq_zero (Nat.eq_zero_of_not_pos hlt), rfl⟩

theorem reads_subset_loop (h : loop mem fuel s = some (ok, s')) : s.reads ⊆ s'.reads := by
  induction fuel generalizing s with
  | zero => cases h
  | succ fuel ih =>
    have hs := reads_subset_touch s 0 1
    cases ht : switch mem (s.touch 0 1) with
    | none =>
      rw [loop_of_return h ht]
      exact hs
    | some t =>
      rcases loop_of_switch h ht with ⟨-, hl⟩ | ⟨-, rfl⟩
      · exact fun _ h => ih hl (reads_subset_switch ht (hs h))
      · exact fun _ h => reads_subset_switch ht (hs h)

def Field.behind : Field → Nat
  | .options => 192
  | .file => 64
  | .sname => 0

theorem loop_isSome (mem : Nat → UInt8) (hpos : 0 < s.remaining)
    (hfuel : s.remaining + s.currfield.behind ≤ fuel) : (loop mem fuel s).isSome := by
  induction fuel generalizing s with
  | zero => omega
  | succ fuel ih =>
    rw [loop]
    have hnext : ∀ t : Scan, t.advance.remaining + t.currfield.behind < s.remaining + s.currfield.behind →
        (if 0 < t.advance.remaining then loop mem fuel t.advance else some (false, t.advance)).isSome := by
      intro t ht
      split_ifs with hpos'
      · exact ih hpos' (by dsimp only [Scan.advance] at ht ⊢; omega)
      · rfl
    rcases switch_cases mem (s.touch 0 1) with ⟨-, h⟩ | ⟨-, h⟩ | ⟨f, -, h, hf⟩ | ⟨-, -, h⟩ <;> rw [h]
    · refine hnext _ ?_
      dsimp only [Scan.advance, Scan.touch]
      omega
    · rfl
    · refine hnext _ ?_
      rcases hf with ⟨hs, rfl, -⟩ | ⟨hs, rfl, -⟩ <;> replace hs : s.currfield = _ := hs <;> rw [hs] <;>
        dsimp only [Scan.advance, Scan.enter, Field.size, Field.behind] <;> omega
    · obtain ⟨k, -, ho⟩ := option_eq mem (s.touch 0 1)
      rw [ho]
      refine hnext _ ?_
      dsimp only [Scan.advance, Scan.touch]
      omega

theorem option_congr (hptr : mem s.ptr = mem' s.ptr)
    (hagree : ∀ p ∈ (option mem s).reads, mem p.2 = mem' p.2) : option mem' s = option mem s := by
  have hlen : mem (s.ptr + 1) = mem' (s.ptr + 1) :=
    hagree (s.currfield, s.ptr + 1) (reads_subset_option mem s (mem_touch.mpr (.inl ⟨rfl, by simp⟩)))
  rw [option] at hagree
  rw [option, option, ← hptr, ← hlen]
  by_cases hcond : (stored (mem s.ptr)).1 + 2 ≤ (mem (s.ptr + 1)).toNat + 2 ∧ (mem (s.ptr + 1)).toNat + 2 < s.remaining
  · rw [if_pos hcond] at hagree
    have hdata : bytesAt mem' (s.ptr + 2) (stored (mem s.ptr)).1 = bytesAt mem (s.ptr + 2) (stored (mem s.ptr)).1 := by
      refine map_congr_left fun i hi => (hagree (s.currfield, s.ptr + 2 + i) ?_).symm
      refine mem_touch.mpr (.inl ⟨rfl, Nat.le_add_right _ i, ?_⟩)
      exact Nat.add_lt_add_left (mem_range.mp hi) _
    rw [if_pos hcond, if_pos hcond, hdata]
  · rw [if_neg hcond, if_neg hcond]

theorem switch_congr (hptr : mem s.ptr = mem' s.ptr)
    (hagree : ∀ t, switch mem s = some t → ∀ p ∈ t.reads, mem p.2 = mem' p.2) : switch mem' s = switch mem s := by
  rcases switch_cases mem s with ⟨hc, h⟩ | ⟨hc, -⟩ | ⟨f, hc, -⟩ | ⟨h₀, h₂₅₅, h⟩
  · rw [h, switch, ← hptr, if_pos hc]
  · rw [switch, switch, ← hptr, hc]
    rfl
  · rw [switch, switch, ← hptr, hc]
    rfl
  · rw [h, switch, ← hptr, if_neg h₀, if_neg h₂₅₅, option_congr hptr (hagree _ h)]

theorem loop_congr (h : loop mem fuel s = some (ok, s'))
    (hagree : ∀ p ∈ s'.reads, mem p.2 = mem' p.2) : loop mem' fuel s = some (ok, s') := by
  induction fuel generalizing s with
  | zero => cases h
  | succ fuel ih =>
    have hcode : (s.currfield, s.ptr) ∈ (s.touch 0 1).reads := mem_touch.mpr (.inl ⟨rfl, by simp⟩)
    have hsub : ∀ t, switch mem (s.touch 0 1) = some t → t.reads ⊆ s'.reads := by
      intro t ht
      rcases loop_of_switch h ht with ⟨-, hl⟩ | ⟨-, rfl⟩
      · exact fun _ hp => reads_subset_loop hl hp
      · exact fun _ hp => hp
    have hptr : mem s.ptr = mem' s.ptr := by
      refine hagree (s.currfield, s.ptr) ?_
      cases ht : switch mem (s.touch 0 1) with
      | none => rwa [loop_of_return h ht]
      | some t => exact hsub t ht (reads_subset_switch ht hcode)
    have hswitch : switch mem' (s.touch 0 1) = switch mem (s.touch 0 1) :=
      switch_congr hptr fun t ht p hp => hagree p (hsub t ht hp)
    rw [loop] at h ⊢
    rw [hswitch]
    cases hs : switch mem (s.touch 0 1) with
    | none => rwa [hs] at h
    | some t =>
      rw [hs] at h
      dsimp only at h ⊢
      split_ifs at h with hlt
      · rw [if_pos hlt]
        exact ih h
      · rwa [if_neg hlt]

/-- A read not below the field, nor of its first byte where it was entered at END. -/
def Late (p : Field × Nat) : Prop := p.1.start ≤ p.2 ∧ (p.1 ≠ .options → p.1.start < p.2)

/-- The loop enters a field behind its first byte: the length of the option before END is
added once more. -/
theorem loop_late (h : loop mem fuel s = some (ok, s')) (hptr : Late (s.currfield, s.ptr))
    (hzero : s.optlen = 0 → s.vals.overloaded = 0) (hlate : ∀ p ∈ s.reads, Late p) : ∀ p ∈ s'.reads, Late p := by
  have hmono : ∀ {f a b}, Late (f, a) → a ≤ b → Late (f, b) :=
    fun h hab => ⟨Nat.le_trans h.1 hab, fun hf => Nat.lt_of_lt_of_le (h.2 hf) hab⟩
  have htouch : ∀ {s : Scan} {i n}, Late (s.currfield, s.ptr) → (∀ p ∈ s.reads, Late p) →
      ∀ p ∈ (s.touch i n).reads, Late p := by
    rintro s i n hptr hlate ⟨f, a⟩ hp
    rcases mem_touch.mp hp with ⟨rfl, hle, -⟩ | hp
    · exact hmono hptr (by dsimp only at hle; omega)
    · exact hlate _ hp
  induction fuel generalizing s with
  | zero => cases h
  | succ fuel ih =>
    have hlate₀ := htouch (i := 0) (n := 1) hptr hlate
    -- what holds after the round holds at the end
    have hnext : ∀ t, switch mem (s.touch 0 1) = some t → 0 < t.optlen → Late (t.currfield, t.ptr + t.optlen) →
        (∀ p ∈ t.reads, Late p) → ∀ p ∈ s'.reads, Late p := by
      intro t ht hpos hptr' hlate'
      rcases loop_of_switch h ht with ⟨-, hl⟩ | ⟨-, rfl⟩
      · exact ih hl hptr' (fun h => absurd h (Nat.ne_of_gt hpos)) hlate'
      · exact hlate'
    rcases switch_cases mem (s.touch 0 1) with ⟨-, ht⟩ | ⟨-, ht⟩ | ⟨f, -, ht, hf⟩ | ⟨-, -, ht⟩
    · exact hnext _ ht Nat.one_pos (hmono hptr (Nat.le_add_right _ _)) hlate₀
    · rwa [loop_of_return h ht]
    · have hpos : 0 < s.optlen := by
        refine Nat.pos_of_ne_zero fun h0 => ?_
        have hov : (s.touch 0 1).vals.overloaded = 0 := hzero h0
        rcases hf with ⟨-, -, hbit⟩ | ⟨-, -, hbit⟩ <;> exact hbit (by rw [hov]; rfl)
      refine hnext _ ht hpos ⟨Nat.le_add_right _ _, fun _ => ?_⟩ hlate₀
      exact Nat.lt_add_of_pos_right hpos
    · obtain ⟨k, -, ho⟩ := option_eq mem (s.touch 0 1)
      rw [ho] at ht
      refine hnext _ ht (Nat.succ_pos _) (hmono hptr (Nat.le_add_right _ _)) ?_
      exact htouch hptr (htouch hptr hlate₀)

def tlvs : List (UInt8 × List UInt8) × Stop := walk 0 255 0 bs

def before : List (UInt8 × List UInt8) := (tlvs bs.dropLast).1

section

variable {c n : UInt8} {bs : List UInt8}

theorem tlvs_pad (bs : List UInt8) : tlvs (0 :: bs) = tlvs bs := walk_pad (by decide) bs

theorem before_pad (bs : List UInt8) : before (0 :: bs) = before bs := by
  cases bs with
  | nil => rfl
  | cons b bs => rw [before, dropLast_cons_cons, tlvs_pad, before]

theorem before_end (bs : List UInt8) : before (255 :: bs) = [] := by
  cases bs with
  | nil => rfl
  | cons b bs => exact congrArg Prod.fst (walk_fin _)

theorem before_short (hc : c ≠ 255) (hc' : c ≠ 0) (hn : bs.length ≤ n.toNat) : before (c :: n :: bs) = [] := by
  cases bs with
  | nil => exact congrArg Prod.fst (walk_code hc hc')
  | cons b bs =>
    refine congrArg Prod.fst (walk_short hc hc' ?_)
    rw [length_dropLast]
    exact Nat.lt_of_lt_of_le (Nat.lt_succ_self _) hn

theorem before_option (hc : c ≠ 255) (hc' : c ≠ 0) (hn : n.toNat < bs.length) :
    before (c :: n :: bs) = (c, bs.take n.toNat) :: before (bs.drop n.toNat) := by
  have hne : bs ≠ [] := by
    rintro rfl
    cases hn
  have htake : bs.dropLast.take n.toNat = bs.take n.toNat := by
    rw [dropLast_eq_take, take_take, Nat.min_eq_left (by omega)]
  have hdrop : bs.dropLast.drop n.toNat = (bs.drop n.toNat).dropLast := by
    rw [dropLast_eq_take, dropLast_eq_take, drop_take, length_drop, Nat.sub_right_comm]
  rw [before, dropLast_cons_cons, dropLast_cons_of_ne_nil hne, tlvs,
    walk_option hc hc' (by rw [length_dropLast]; omega), htake, hdrop]
  rfl

end

/-- What the loop does with the bytes of the `options` field. It reads past it where the last byte is the code of an
option. Otherwise, unless END leads to another field, all reads are inside, and the options are stored that end before
the last byte. -/
def Scanned (vals : Parsed) (s : Scan) : Prop :=
  ((tlvs bs).2 = .noLength → ¬ Inside s.reads) ∧
    ((tlvs bs).2 ≠ .noLength → ((tlvs bs).2 = .ended → ((before bs).foldl put vals).overloaded &&& 1 = 0) →
      Inside s.reads ∧ s.vals = (before bs).foldl put vals)

theorem inside_touch {i n : Nat} (hfield : s.currfield = .options) (hlo : 236 ≤ s.ptr) (hhi : s.ptr + i + n ≤ 548)
    (hin : Inside s.reads) : Inside (s.touch i n).reads := by
  intro p hp
  rcases mem_touch.mp hp with ⟨hf, hle, hlt⟩ | hp
  · rw [hf, hfield, Field.start, Field.size]
    omega
  · exact hin p hp

theorem inside_option (hfield : s.currfield = .options) (hlo : 236 ≤ s.ptr) (hhi : s.ptr + s.remaining = 548)
    (hin : Inside s.reads) (htwo : 2 ≤ s.remaining) : Inside (option mem s).reads := by
  obtain ⟨k, hk, h⟩ := option_eq mem s
  rw [h]
  have hlength : Inside (s.touch 1 1).reads := inside_touch hfield hlo (by omega) hin
  exact inside_touch hfield hlo (show s.ptr + 2 + k ≤ 548 by omega) hlength

theorem scanned_noLength {vals : Parsed} (hfield : s.currfield = .options) (hlast : s.ptr + 1 = 548)
    (hc : mem s.ptr ≠ 255) (hc' : mem s.ptr ≠ 0) (hsub : ∀ p ∈ (option mem (s.touch 0 1)).reads, p ∈ s'.reads) :
    Scanned [mem s.ptr] vals s' := by
  rw [Scanned, tlvs, walk_code hc hc']
  refine ⟨fun _ hinside => ?_, fun hne => absurd rfl hne⟩
  have hread : (s.currfield, s.ptr + 1) ∈ s'.reads :=
    hsub _ (reads_subset_option mem _ (mem_touch.mpr (.inl ⟨rfl, .refl, Nat.lt_succ_self _⟩)))
  have hlt := (hinside _ hread).2
  rw [hfield, Field.start, Field.size] at hlt
  omega

theorem scanned_skipped {c n : UInt8} {bs : List UInt8} {vals : Parsed} (hc : c ≠ 255) (hc' : c ≠ 0)
    (hn : bs.length ≤ n.toNat) (hin : Inside s'.reads) (hvals : s'.vals = vals) : Scanned (c :: n :: bs) vals s' := by
  have hstop : (tlvs (c :: n :: bs)).2 ≠ .noLength := by
    rcases Nat.lt_or_ge bs.length n.toNat with hshort | hall
    · rw [tlvs, walk_short hc hc' hshort]
      nofun
    · rw [tlvs, walk_option hc hc' hall, drop_eq_nil_of_le hn]
      nofun
  rw [Scanned, before_short hc hc' hn]
  exact ⟨fun h => absurd h hstop, fun _ _ => ⟨hin, hvals⟩⟩

theorem loop_options (h : loop mem fuel s = some (ok, s')) (hfield : s.currfield = .options)
    (hlo : 236 ≤ s.ptr) (hhi : s.ptr + s.remaining = 548) (hpos : 0 < s.remaining) (hin : Inside s.reads) :
    Scanned (bytesAt mem s.ptr s.remaining) s.vals s' := by
  induction fuel generalizing s with
  | zero => cases h
  | succ fuel ih =>
    have hcode : Inside (s.touch 0 1).reads := inside_touch hfield hlo (by omega) hin
    obtain ⟨r, hr⟩ : ∃ r, s.remaining = r + 1 := ⟨s.remaining - 1, by omega⟩
    rw [hr, bytesAt_succ]
    rcases switch_cases mem (s.touch 0 1) with ⟨hc, ht⟩ | ⟨hc, ht⟩ | ⟨f, hc, ht, hf⟩ | ⟨hc', hc, ht⟩
    · -- padding
      replace hc : mem s.ptr = 0 := hc
      rw [hc, Scanned, tlvs_pad, before_pad]
      rcases loop_of_switch h ht with ⟨hlt, hl⟩ | ⟨hle, rfl⟩
      · replace hlt : 1 < s.remaining := hlt
        have hs := ih hl hfield (Nat.le_add_right_of_le hlo) (by dsimp only [Scan.advance, Scan.touch]; omega)
          (Nat.sub_pos_of_lt hlt) hcode
        have hrem : (Scan.advance { s.touch 0 1 with optlen := 1 }).remaining = r := by
          dsimp only [Scan.advance, Scan.touch]
          omega
        rw [hrem] at hs
        exact hs
      · replace hle : s.remaining ≤ 1 := hle
        obtain rfl : r = 0 := by omega
        exact ⟨nofun, fun _ _ => ⟨hcode, rfl⟩⟩
    · -- END, and no other field follows
      replace hc : mem s.ptr = 255 := hc
      rw [hc, Scanned, before_end, tlvs, walk_fin, loop_of_return h ht]
      exact ⟨nofun, fun _ _ => ⟨hcode, rfl⟩⟩
    · -- END leads to the `file` field
      replace hc : mem s.ptr = 255 := hc
      rw [hc, Scanned, before_end, tlvs, walk_fin]
      rcases hf with ⟨-, -, hbit⟩ | ⟨hfile, -⟩
      · exact ⟨nofun, fun _ hzero => absurd (hzero rfl) hbit⟩
      · replace hfile : s.currfield = .file := hfile
        rw [hfield] at hfile
        cases hfile
    · -- an option with a length
      replace hc : mem s.ptr ≠ 255 := hc
      replace hc' : mem s.ptr ≠ 0 := hc'
      have hnext := loop_of_switch h ht
      cases r with
      | zero =>
        refine scanned_noLength hfield (by omega) hc hc' fun p hp => ?_
        rcases hnext with ⟨-, hl⟩ | ⟨-, rfl⟩
        · exact reads_subset_loop hl hp
        · exact hp
      | succ r =>
        have hinside : Inside (option mem (s.touch 0 1)).reads :=
          inside_option hfield hlo hhi hcode (show 2 ≤ s.remaining by omega)
        rw [bytesAt_succ]
        rcases hnext with ⟨hlt, hl⟩ | ⟨hle, rfl⟩
        · -- it ends before the field, and is stored
          simp only [option_optlen, option_remaining, touch_ptr, touch_remaining] at hlt
          obtain ⟨d, rfl⟩ : ∃ d, r = (mem (s.ptr + 1)).toNat + d := ⟨r - (mem (s.ptr + 1)).toNat, by omega⟩
          have hd : s.remaining - ((mem (s.ptr + 1)).toNat + 2) = d := by omega
          have hvals : (option mem (s.touch 0 1)).vals =
              put s.vals (mem s.ptr, bytesAt mem (s.ptr + 2) (mem (s.ptr + 1)).toNat) :=
            (option_vals ..).trans (if_pos hlt)
          have hs := ih hl
          simp only [advance_ptr, advance_remaining, advance_vals, option_ptr, option_remaining, option_optlen,
            touch_ptr, touch_remaining, hvals, hd] at hs
          rw [Scanned, before_option hc hc' (by rw [length_bytesAt]; omega), tlvs,
            walk_option hc hc' (by rw [length_bytesAt]; omega), drop_bytesAt, take_bytesAt]
          rw [Nat.add_comm _ 2, ← Nat.add_assoc] at hs
          refine hs ?_ (by omega) (by omega) (by omega) hinside
          exact (option_currfield ..).trans hfield
        · -- it does not
          simp only [option_optlen, option_remaining, touch_ptr, touch_remaining] at hle
          refine scanned_skipped hc hc' (by rw [length_bytesAt]; omega) hinside ?_
          exact (option_vals ..).trans (if_neg (Nat.not_lt.mpr hle))

end NuttxApps.Dhcpd
