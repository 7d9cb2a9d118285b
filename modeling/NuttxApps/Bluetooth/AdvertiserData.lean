import NuttxApps.Framework.Bytes
import Mathlib.Algebra.GroupWithZero.Nat

/-!
# Advertising data

Every function that adds an element computes its length on its own, and `advertiser_data_build` copies as many bytes as
the length says and one more. Every element that has a length parses as one structure (`parse_copy`). `build_exact_iff`
says which elements are what was meant.
-/

namespace NuttxApps.Bluetooth

open Bytes (leBytes)

structure AdStructure where
  type : UInt8
  payload : List UInt8
deriving DecidableEq

/-- The structures of a buffer, `none` if it does not end with one. -/
def parse : Nat → List UInt8 → Option (List AdStructure)
  | _, [] => some []
  | 0, _ :: _ => none
  | _ + 1, [_] => none
  | fuel + 1, len :: type :: rest =>
    if len = 0 ∨ rest.length + 1 < len.toNat then none
    else (parse fuel (rest.drop (len.toNat - 1))).map (⟨type, rest.take (len.toNat - 1)⟩ :: ·)

def AdStructure.size (s : AdStructure) : Nat := s.payload.length + 2

structure AdvData where
  (len type : UInt8)
  data : List UInt8

def AdvData.copy (e : AdvData) : List UInt8 := (e.len :: e.type :: e.data).take (e.len.toNat + 1)

inductive UuidType
  | uuid16
  | uuid32
  | uuid128
  | other
deriving DecidableEq

/-- `bt_uuid_t`. The members of the union share their bytes; nothing depends on how. -/
structure BtUuid where
  type : UuidType
  u16 : UInt16
  u32 : UInt32
  u128 : Vector UInt8 16

inductive Call
  | setName (name : List UInt8)
  | setFlags (flags : UInt8)
  | setAppearance (appearance : UInt16)
  | addData (type : UInt8) (data : List UInt8)
  | addManufactureData (id : UInt16) (data : List UInt8)
  | addServiceUuid (uuid : BtUuid)
  | addServiceData (uuid : BtUuid) (data : List UInt8)

theorem length_u128 (u128 : Vector UInt8 16) : (17 : UInt8).toNat = u128.toList.length + 1 := by
  rw [Vector.length_toList]
  rfl

open List

def setName (name : List UInt8) : AdvData :=
  let nameLen := UInt8.ofNat name.length
  if 29 < nameLen then ⟨29 + 1, 0x08, name.take 29⟩ else ⟨nameLen + 1, 0x09, name.take nameLen.toNat⟩

def setFlags (flags : UInt8) : AdvData := ⟨2, 0x01, [flags]⟩

def setAppearance (appearance : UInt16) : AdvData := ⟨3, 0x19, leBytes 2 appearance.toNat⟩

def addData (type : UInt8) (data : List UInt8) : AdvData := ⟨UInt8.ofNat data.length, type, data⟩

def addManufactureData (id : UInt16) (data : List UInt8) : AdvData :=
  ⟨UInt8.ofNat data.length + 2 + 1, 0xff, leBytes 2 id.toNat ++ data⟩

/-- `advertiser_data_add_service_uuid`; the case of 32 bits has no `break`. -/
def addServiceUuid (uuid : BtUuid) : Option AdvData :=
  match uuid.type with
  | .uuid16 => some ⟨2 + 1, 0x03, leBytes 2 uuid.u16.toNat⟩
  | .uuid32 | .uuid128 => some ⟨16 + 1, 0x07, uuid.u128.toList⟩
  | .other => none

def addServiceData (uuid : BtUuid) (data : List UInt8) : Option AdvData :=
  match uuid.type with
  | .uuid16 => some ⟨2 + 1, 0x16, leBytes 2 uuid.u16.toNat ++ data⟩
  | .uuid32 | .uuid128 => some ⟨16 + 1, 0x21, uuid.u128.toList ++ data⟩
  | .other => none

def Call.element : Call → Option AdvData
  | .setName name => some (Bluetooth.setName name)
  | .setFlags flags => some (Bluetooth.setFlags flags)
  | .setAppearance appearance => some (Bluetooth.setAppearance appearance)
  | .addData type data => some (Bluetooth.addData type data)
  | .addManufactureData id data => some (Bluetooth.addManufactureData id data)
  | .addServiceUuid uuid => Bluetooth.addServiceUuid uuid
  | .addServiceData uuid data => Bluetooth.addServiceData uuid data

/-- The length that `advertiser_data_build` returns and the size of its buffer, and the bytes it copies there. -/
structure Built where
  len : UInt16
  bytes : List UInt8

def build (elements : List AdvData) : Option Built :=
  if elements = [] then none
  else some ⟨elements.foldl (fun total e => total + (e.len.toUInt16 + 1)) 0, elements.flatMap AdvData.copy⟩

def Call.meant : Call → Option AdStructure
  | .setName name => some ⟨0x09, name⟩
  | .setFlags flags => some ⟨0x01, [flags]⟩
  | .setAppearance appearance => some ⟨0x19, leBytes 2 appearance.toNat⟩
  | .addData type data => some ⟨type, data⟩
  | .addManufactureData id data => some ⟨0xff, leBytes 2 id.toNat ++ data⟩
  | .addServiceUuid uuid =>
    match uuid.type with
    | .uuid16 => some ⟨0x03, leBytes 2 uuid.u16.toNat⟩
    | .uuid32 => some ⟨0x05, leBytes 4 uuid.u32.toNat⟩
    | .uuid128 => some ⟨0x07, uuid.u128.toList⟩
    | .other => none
  | .addServiceData uuid data =>
    match uuid.type with
    | .uuid16 => some ⟨0x16, leBytes 2 uuid.u16.toNat ++ data⟩
    | .uuid32 => some ⟨0x20, leBytes 4 uuid.u32.toNat ++ data⟩
    | .uuid128 => some ⟨0x21, uuid.u128.toList ++ data⟩
    | .other => none

def Call.Short (c : Call) : Prop := ∀ s, c.meant = some s → s.payload.length + 1 < 256

def Call.Exact : Call → Prop
  | .setName name => name.length ≤ 29
  | .setFlags _ | .setAppearance _ | .addManufactureData _ _ => True
  | .addData _ _ => False
  | .addServiceUuid uuid => uuid.type ≠ .uuid32
  | .addServiceData uuid data => uuid.type = .other ∨ uuid.type ≠ .uuid32 ∧ data = []

def Holds (structures : List AdStructure) : Option Built → Prop
  | none => structures = []
  | some built => built.bytes.length = built.len.toNat ∧ parse built.bytes.length built.bytes = some structures

def AdvData.parsed (e : AdvData) : AdStructure := ⟨e.type, e.data.take (e.len.toNat - 1)⟩

def AdvData.Full (e : AdvData) : Prop := e.len.toNat ≤ e.data.length + 1

variable (uuid : BtUuid) (id : UInt16) (data : List UInt8) {e : AdvData}

theorem length_copy (h : e.Full) : e.copy.length = e.len.toNat + 1 := by
  rw [AdvData.Full] at h
  rw [AdvData.copy, length_take, length_cons, length_cons]
  omega

theorem parse_copy (h : e.Full) (fuel : Nat) (rest : List UInt8) :
    parse (fuel + 1) (e.copy ++ rest) = if e.len = 0 then none else (parse fuel rest).map (e.parsed :: ·) := by
  rw [AdvData.Full] at h
  by_cases hzero : e.len = 0
  · rw [AdvData.copy, hzero, if_pos rfl]
    cases rest <;> simp [parse]
  · have hpos : e.len.toNat ≠ 0 := fun h => hzero (UInt8.toNat_inj.mp h)
    obtain ⟨k, hk⟩ : ∃ k, e.len.toNat = k + 1 := ⟨e.len.toNat - 1, by omega⟩
    have hlen : (e.data.take k).length = k := by
      rw [length_take]
      omega
    rw [AdvData.copy, hk, take_succ_cons, take_succ_cons, cons_append, cons_append, parse,
      hk, Nat.add_sub_cancel, drop_left' hlen, take_left' hlen, if_neg hzero, if_neg, AdvData.parsed, hk]
    · rfl
    · rw [length_append, hlen, not_or]
      exact ⟨hzero, by omega⟩

section

variable {es : List AdvData} (hfull : ∀ e ∈ es, e.Full)

include hfull

theorem parse_copies_iff {fuel : Nat} (hfuel : es.length ≤ fuel) {ss : List AdStructure} :
    parse fuel (es.flatMap AdvData.copy) = some ss ↔ (∀ e ∈ es, e.len ≠ 0) ∧ es.map AdvData.parsed = ss := by
  induction es generalizing fuel ss with
  | nil => cases fuel <;> simp [parse]
  | cons e es ih =>
    rw [forall_mem_cons] at hfull
    obtain ⟨fuel, rfl⟩ : ∃ k, fuel = k + 1 := ⟨fuel - 1, by rw [length_cons] at hfuel; omega⟩
    rw [flatMap_cons, parse_copy hfull.1, forall_mem_cons, map_cons]
    split_ifs with hzero
    · exact iff_of_false nofun fun h => h.1.1 hzero
    · rw [Option.map_eq_some_iff]
      constructor
      · rintro ⟨rest, hrest, rfl⟩
        obtain ⟨hne, rfl⟩ := (ih hfull.2 (Nat.le_of_succ_le_succ hfuel)).mp hrest
        exact ⟨⟨hzero, hne⟩, rfl⟩
      · rintro ⟨⟨-, hne⟩, rfl⟩
        exact ⟨_, (ih hfull.2 (Nat.le_of_succ_le_succ hfuel)).mpr ⟨hne, rfl⟩, rfl⟩

theorem length_le_copies : es.length ≤ (es.flatMap AdvData.copy).length := by
  induction es with
  | nil => exact Nat.le_refl 0
  | cons e es ih =>
    rw [forall_mem_cons] at hfull
    have := ih hfull.2
    rw [flatMap_cons, length_append, length_copy hfull.1, length_cons]
    omega

theorem toNat_total (total : UInt16) :
    (es.foldl (fun total e => total + (e.len.toUInt16 + 1)) total).toNat =
      (total.toNat + (es.flatMap AdvData.copy).length) % 2 ^ 16 := by
  induction es generalizing total with
  | nil =>
    have := total.toNat_lt
    rw [foldl_nil, flatMap_nil, length_nil, add_zero, Nat.mod_eq_of_lt this]
  | cons e es ih =>
    rw [forall_mem_cons] at hfull
    rw [foldl_cons, ih hfull.2, flatMap_cons, length_append, length_copy hfull.1, UInt16.toNat_add,
      UInt16.toNat_add, UInt8.toNat_toUInt16, show (1 : UInt16).toNat = 1 from rfl]
    omega

end

/-! ## The elements and what they should be -/

theorem setName_eq {name : List UInt8} (hshort : name.length + 1 < 256) :
    (setName name).Full ∧ ((setName name).len ≠ 0 ∧ (setName name).parsed = ⟨0x09, name⟩ ↔ name.length ≤ 29) := by
  have hlen : (UInt8.ofNat name.length).toNat = name.length := UInt8.toNat_ofNat_of_lt' (show _ < 256 by omega)
  have hlt : 29 < UInt8.ofNat name.length ↔ 29 < name.length := by
    rw [UInt8.lt_iff_toNat_lt, hlen]
    rfl
  rw [setName]
  split_ifs with h
  · rw [hlt] at h
    refine ⟨?_, iff_of_false (fun hp => ?_) (by omega)⟩
    · rw [AdvData.Full, length_take]
      exact show 30 ≤ min 29 name.length + 1 by omega
    · exact absurd (congrArg AdStructure.type hp.2) (by simp [AdvData.parsed])
  · rw [hlt] at h
    have hadd : (UInt8.ofNat name.length + 1).toNat = name.length + 1 := by
      rw [UInt8.toNat_add, hlen, show (1 : UInt8).toNat = 1 from rfl, Nat.mod_eq_of_lt (by omega)]
    refine ⟨?_, iff_of_true ⟨fun h0 => ?_, ?_⟩ (by omega)⟩
    · exact Nat.le_of_eq (by rw [hadd, hlen, take_length])
    · have := congrArg UInt8.toNat h0
      rw [hadd] at this
      cases this
    · rw [AdvData.parsed, hadd, Nat.add_sub_cancel, hlen, take_length, take_length]

theorem parsed_eq (own rest : List UInt8) (hdata : e.data = own ++ rest)
    (hlen : e.len.toNat = own.length + 1) : e.Full ∧ e.len ≠ 0 ∧ e.parsed = ⟨e.type, own⟩ := by
  refine ⟨?_, fun h0 => ?_, ?_⟩
  · rw [AdvData.Full, hlen, hdata, length_append]
    omega
  · rw [h0] at hlen
    cases hlen
  · rw [AdvData.parsed, hdata, hlen, Nat.add_sub_cancel, take_left]

theorem addData_eq (type : UInt8) {data : List UInt8} (hshort : data.length + 1 < 256) :
    (addData type data).Full ∧ ¬ ((addData type data).len ≠ 0 ∧ (addData type data).parsed = ⟨type, data⟩) := by
  have hlen : (UInt8.ofNat data.length).toNat = data.length := UInt8.toNat_ofNat_of_lt' (show _ < 256 by omega)
  refine ⟨?_, fun ⟨hne, hparsed⟩ => ?_⟩
  · rw [AdvData.Full, addData, hlen]
    exact Nat.le_succ _
  · have hpos : data.length ≠ 0 := fun h0 => hne (UInt8.toNat_inj.mp (hlen.trans h0))
    have := congrArg (·.payload.length) hparsed
    simp only [AdvData.parsed, addData, hlen, length_take] at this
    omega

theorem addManufactureData_eq (hshort : 2 + data.length + 1 < 256) :
    (addManufactureData id data).len.toNat = (leBytes 2 id.toNat ++ data).length + 1 := by
  have hlen : (UInt8.ofNat data.length).toNat = data.length := UInt8.toNat_ofNat_of_lt' (show _ < 256 by omega)
  rw [addManufactureData, length_append, Bytes.length_leBytes, UInt8.toNat_add, UInt8.toNat_add, hlen,
    show (1 : UInt8).toNat = 1 from rfl, show (2 : UInt8).toNat = 2 from rfl]
  omega

/-- A call that rightly appends nothing, or an element that parses to what is meant exactly if the call is exact. -/
def Call.Appends (c : Call) : Prop :=
  c.element = none ∧ c.meant = none ∧ c.Exact ∨
    ∃ e s, c.element = some e ∧ c.meant = some s ∧ e.Full ∧ (e.len ≠ 0 ∧ e.parsed = s ↔ c.Exact)

theorem Call.appends_addServiceUuid : (Call.addServiceUuid uuid).Appends := by
  obtain ⟨type, u16, u32, u128⟩ := uuid
  obtain ⟨hfull, hne, hparsed⟩ :=
    parsed_eq (e := ⟨16 + 1, 0x07, u128.toList⟩) _ [] (append_nil _).symm (length_u128 u128)
  cases type with
  | uuid16 =>
    obtain ⟨hfull, hparsed⟩ := parsed_eq (e := ⟨2 + 1, 0x03, leBytes 2 u16.toNat⟩) (leBytes 2 u16.toNat) [] rfl rfl
    exact .inr ⟨_, _, rfl, rfl, hfull, iff_of_true hparsed nofun⟩
  | uuid32 =>
    -- the case of 32 bits has no `break`
    refine .inr ⟨_, _, rfl, rfl, hfull, iff_of_false (fun h => ?_) fun h => h rfl⟩
    exact absurd (congrArg AdStructure.type (hparsed.symm.trans h.2)) (show (0x07 : UInt8) ≠ 0x05 by decide)
  | uuid128 => exact .inr ⟨_, _, rfl, rfl, hfull, iff_of_true ⟨hne, hparsed⟩ nofun⟩
  | other => exact .inl ⟨rfl, rfl, nofun⟩

theorem Call.appends_addServiceData : (Call.addServiceData uuid data).Appends := by
  obtain ⟨type, u16, u32, u128⟩ := uuid
  obtain ⟨hfull, -, hparsed⟩ := parsed_eq (e := ⟨16 + 1, 0x21, u128.toList ++ data⟩) _ data rfl (length_u128 u128)
  cases type with
  | uuid16 =>
    obtain ⟨hfull, -, hparsed⟩ := parsed_eq (e := ⟨2 + 1, 0x16, leBytes 2 u16.toNat ++ data⟩) _ data rfl rfl
    refine .inr ⟨_, _, rfl, rfl, hfull, ?_⟩
    rw [hparsed]
    simp [Exact]
  | uuid32 =>
    refine .inr ⟨_, _, rfl, rfl, hfull, iff_of_false (fun h => ?_) (by simp [Exact])⟩
    exact absurd (congrArg AdStructure.type (hparsed.symm.trans h.2)) (show (0x21 : UInt8) ≠ 0x20 by decide)
  | uuid128 =>
    refine .inr ⟨_, _, rfl, rfl, hfull, ?_⟩
    rw [hparsed]
    simp [Exact]
  | other => exact .inl ⟨rfl, rfl, .inl rfl⟩

theorem Call.appends {c : Call} (hshort : c.Short) : c.Appends := by
  cases c with
  | setName name => exact .inr ⟨_, _, rfl, rfl, setName_eq (hshort _ rfl)⟩
  | setFlags flags =>
    obtain ⟨hfull, hparsed⟩ := parsed_eq (e := Bluetooth.setFlags flags) [flags] [] rfl rfl
    exact .inr ⟨_, _, rfl, rfl, hfull, iff_of_true hparsed trivial⟩
  | setAppearance appearance =>
    obtain ⟨hfull, hparsed⟩ :=
      parsed_eq (e := Bluetooth.setAppearance appearance) (leBytes 2 appearance.toNat) [] rfl rfl
    exact .inr ⟨_, _, rfl, rfl, hfull, iff_of_true hparsed trivial⟩
  | addData type data =>
    obtain ⟨hfull, hparsed⟩ := addData_eq type (hshort _ rfl)
    exact .inr ⟨_, _, rfl, rfl, hfull, iff_of_false hparsed id⟩
  | addManufactureData id data =>
    have hlen := addManufactureData_eq id data (by simpa using hshort _ rfl)
    obtain ⟨hfull, hparsed⟩ := parsed_eq _ [] (append_nil _).symm hlen
    exact .inr ⟨_, _, rfl, rfl, hfull, iff_of_true hparsed trivial⟩
  | addServiceUuid uuid => exact appends_addServiceUuid uuid
  | addServiceData uuid data => exact appends_addServiceData uuid data

theorem parsed_elements_iff {calls : List Call} (hshort : ∀ c ∈ calls, c.Short) :
    (∀ e ∈ calls.filterMap Call.element, e.Full) ∧
      ((∀ e ∈ calls.filterMap Call.element, e.len ≠ 0) ∧
          (calls.filterMap Call.element).map AdvData.parsed = calls.filterMap Call.meant ↔
        ∀ c ∈ calls, c.Exact) := by
  induction calls with
  | nil => simp
  | cons c calls ih =>
    rw [forall_mem_cons] at hshort
    obtain ⟨hfull, hiff⟩ := ih hshort.2
    rcases Call.appends hshort.1 with ⟨he, hm, hexact⟩ | ⟨e, s, he, hm, hfull', hexact⟩
    · rw [filterMap_cons_none he, filterMap_cons_none hm, forall_mem_cons]
      exact ⟨hfull, hiff.trans (and_iff_right hexact).symm⟩
    · rw [filterMap_cons_some he, filterMap_cons_some hm, forall_mem_cons, forall_mem_cons,
        forall_mem_cons, map_cons, cons.injEq, ← hexact, ← hiff]
      exact ⟨⟨hfull', hfull⟩, by tauto⟩

theorem length_copies {es : List AdvData} (hfull : ∀ e ∈ es, e.Full) (hne : ∀ e ∈ es, e.len ≠ 0) :
    (es.flatMap AdvData.copy).length = ((es.map AdvData.parsed).map AdStructure.size).sum := by
  induction es with
  | nil => rfl
  | cons e es ih =>
    rw [forall_mem_cons] at hfull hne
    have hpos : e.len.toNat ≠ 0 := fun h => hne.1 (UInt8.toNat_inj.mp h)
    have hsize : e.parsed.size = e.len.toNat + 1 := by
      have hle : e.len.toNat ≤ e.data.length + 1 := hfull.1
      rw [AdStructure.size, AdvData.parsed, length_take]
      omega
    rw [flatMap_cons, length_append, length_copy hfull.1, ih hfull.2 hne.2, map_cons, map_cons, sum_cons, hsize]

/-- The buffer holds what was asked for, in order, exactly if every call is exact and all of it has less than 2¹⁶
bytes. -/
theorem build_exact_iff (calls : List Call) (hshort : ∀ c ∈ calls, c.Short) :
    Holds (calls.filterMap Call.meant) (build (calls.filterMap Call.element)) ↔
      (∀ c ∈ calls, c.Exact) ∧ ((calls.filterMap Call.meant).map AdStructure.size).sum < 2 ^ 16 := by
  obtain ⟨hfull, hexact⟩ := parsed_elements_iff hshort
  rw [build]
  split_ifs with hnil
  · rw [hnil] at hexact
    rw [Holds, ← hexact]
    constructor
    · intro h
      rw [h]
      exact ⟨⟨nofun, rfl⟩, by decide⟩
    · rintro ⟨⟨-, h⟩, -⟩
      exact h.symm
  · rw [Holds]
    have htotal := toNat_total hfull 0
    rw [show (0 : UInt16).toNat = 0 from rfl, zero_add] at htotal
    rw [htotal, parse_copies_iff hfull (length_le_copies hfull), ← hexact]
    constructor
    · rintro ⟨hlen, hne, hparsed⟩
      refine ⟨⟨hne, hparsed⟩, ?_⟩
      rw [← hparsed, ← length_copies hfull hne, hlen]
      exact Nat.mod_lt _ (by decide)
    · rintro ⟨⟨hne, hparsed⟩, hlt⟩
      rw [← hparsed, ← length_copies hfull hne] at hlt
      exact ⟨(Nat.mod_eq_of_lt hlt).symm, hne, hparsed⟩

theorem build_exact_beacon :
    let calls : List Call := [.setFlags 0x06, .setName [0x61, 0x62], .setAppearance 0x0341,
      .addManufactureData 0x038f [1, 2, 3], .addServiceUuid ⟨.uuid16, 0x180f, 0x180f, .replicate 16 0⟩]
    Holds (calls.filterMap Call.meant) (build (calls.filterMap Call.element)) := by
  refine (build_exact_iff _ fun c hc s hs => ?_).mpr ⟨by simp [Call.Exact], by decide⟩
  simp only [List.mem_cons, List.not_mem_nil, or_false] at hc
  rcases hc with rfl | rfl | rfl | rfl | rfl <;> obtain rfl := Option.some.inj hs <;> simp

/-- The last byte of the data and service data are missing, and a 32-bit UUID is one of 128 bits. -/
theorem payload_dropped :
    build ([Call.addData 0xff [1, 2, 3]].filterMap Call.element) = some ⟨4, [3, 0xff, 1, 2]⟩ ∧
      build ([Call.addServiceData ⟨.uuid16, 0x180f, 0x180f, .replicate 16 0⟩ [7]].filterMap Call.element) =
        some ⟨4, [3, 0x16, 0x0f, 0x18]⟩ ∧
      ¬ Holds [⟨0xff, [1, 2, 3]⟩] (build ([Call.addData 0xff [1, 2, 3]].filterMap Call.element)) ∧
      ¬ Holds [⟨0x05, [0x78, 0x56, 0x34, 0x12]⟩] (build ([Call.addServiceUuid
        ⟨.uuid32, 0x5678, 0x12345678, ⟨#[0x78, 0x56, 0x34, 0x12, 0, 0, 0, 0, 0, 0, 0, 0, 0, 0, 0, 0], rfl⟩⟩].filterMap
          Call.element)) := by
  refine ⟨rfl, rfl, fun h => ?_, fun h => ?_⟩
  · exact absurd h.2 (by decide)
  · exact absurd h.2 (by decide)

end NuttxApps.Bluetooth
