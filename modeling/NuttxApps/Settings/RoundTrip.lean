import NuttxApps.Settings.ValueText

/-!
# Saving the settings as text and loading them again

`Built` are the maps that `settings_create` and `settings_set` make with string, integer, boolean and address values.
The text saved of such a map loads as the same map just if every entry survives on its own, by its value and by the
length of its line (`roundTrip_iff`).
-/

namespace NuttxApps.Settings

open CString Libc Scan Replay List

variable {F : Type}

def Val.Plain : Val F → Prop
  | .float _ => False
  | .string s => 0 ∉ s
  | _ => True

inductive Built (cfg : Config) : List (Setting F) → Prop
  | init : Built cfg (blankMap cfg)
  | create {map : List (Setting F)} {key : List UInt8} {v : Val F} (h : Built cfg map) (hk : 0 ∉ key)
      (hv : v.Plain) : Built cfg (settingsCreate cfg key v map).2
  | set {map : List (Setting F)} {key : List UInt8} {v : Val F} (h : Built cfg map) (hk : 0 ∉ key)
      (hv : v.Plain) : Built cfg (settingsSet cfg key v map).2

def Val.Stored (cfg : Config) : Val F → Prop
  | .empty => False
  | .float _ => False
  | .bool i => i = 0 ∨ i = 1
  | .string s => s.length < cfg.valueSize ∧ sanityCheck s ∧ 0 ∉ s
  | .int _ => True
  | .ipAddr _ => True

structure KeyOk (cfg : Config) (key : List UInt8) : Prop where
  ne_nil : key ≠ []
  length_lt : key.length < cfg.keySize
  alpha : isalpha (key.headD 0)
  sane : sanityCheck key
  nul : 0 ∉ key

def EntryOk (cfg : Config) (e : Setting F) : Prop :=
  e = blank ∨ KeyOk cfg e.key ∧ e.val.Stored cfg

variable {cfg : Config} {map : List (Setting F)} {s : List UInt8} (env : Env F) {v : Val F}

theorem Val.Stored.ty_ne (h : v.Stored cfg) : v.ty ≠ .empty := by
  cases v with
  | empty => exact h.elim
  | _ => simp [Val.ty]

variable {P : Setting F → Prop} {a b : List (Setting F)} {e e' : Setting F}

theorem stored_of_setVal (hv : v.Plain) (hne : v.ty ≠ .empty) (h : setVal cfg v e = .ok e') : e'.val.Stored cfg := by
  cases v with
  | empty => exact (hne rfl).elim
  | float f => exact hv.elim
  | string s =>
    obtain ⟨rfl, hlen, hsane⟩ := setString_eq_ok h
    exact ⟨hlen, hsane, hv⟩
  | bool i =>
    rw [setAs_eq_ok h]
    by_cases hi : i = 0 <;> simp [Val.Stored, hi]
  | int i => rw [setAs_eq_ok h]; trivial
  | ipAddr ip => rw [setAs_eq_ok h]; trivial

theorem forall_mem_replace (h : ∀ x ∈ a ++ e :: b, P x) (he' : P e') : ∀ x ∈ a ++ e' :: b, P x := by
  intro x hx
  grind

theorem Built.invariant (h : Built cfg map) : map.length = cfg.mapSize ∧ Packed map ∧ ∀ e ∈ map, EntryOk cfg e := by
  induction h with
  | init =>
    refine ⟨length_replicate, packed_blankMap cfg, fun e he => ?_⟩
    exact .inl (eq_of_mem_replicate he)
  | @create map key v _ hk hv ih =>
    obtain ⟨hlen, hp, hok⟩ := ih
    refine ⟨?_, packed_settingsCreate hp, ?_⟩
    all_goals
      rcases settingsCreate_cases cfg key v map with hm | ⟨a, e, b, hl, hu, hc, hm | ⟨e', he, hm⟩⟩
      · rwa [hm]
      all_goals
        rw [hm]
        obtain ⟨rfl, -, -⟩ := lookup_eq_some.mp hl
    · simpa using hlen
    · simpa using hlen
    · exact forall_mem_replace hok (.inl rfl)
    · obtain ⟨hty, hset⟩ := createVal_eq_ok he
      refine forall_mem_replace hok (.inr ⟨?_, stored_of_setVal hv hty hset⟩)
      rw [(createVal_used he).1]
      exact ⟨hc.1, hc.2.1, hc.2.2.1, hc.2.2.2, hk⟩
  | @set map key v _ hk hv ih =>
    obtain ⟨hlen, hp, hok⟩ := ih
    refine ⟨?_, packed_settingsSet hp, ?_⟩
    all_goals
      rcases settingsSet_cases cfg key v map with hm | ⟨a, e, b, e', hl, hu, hek, he, hm⟩
      · rwa [hm]
      rw [hm]
      obtain ⟨rfl, -, -⟩ := lookup_eq_some.mp hl
    · simpa using hlen
    · have hold : KeyOk cfg e.key ∧ e.val.Stored cfg := by
        rcases hok e (by simp) with rfl | h
        · simp at hu
        · exact h
      refine forall_mem_replace hok (.inr ⟨(setVal_eq_ok he).1 ▸ hold.1, ?_⟩)
      by_cases hne : v.ty = .empty
      · -- a call without a type changes nothing
        cases v <;> simp [Val.ty] at hne
        cases he
        exact hold.2
      · exact stored_of_setVal hv hne he

theorem sanityCheck_iff : sanityCheck s ↔ 61 ∉ s ∧ ∀ c ∈ s, c ∉ chars [';', '\n', '\r'] := by
  rw [sanityCheck, all_eq_true]
  have hc : ∀ c : UInt8, c ∈ chars ['=', ';', '\n', '\r'] ↔ c = 61 ∨ c ∈ chars [';', '\n', '\r'] :=
    fun c => mem_cons
  simp only [hc, not_or, decide_eq_true_eq]
  exact ⟨fun h => ⟨fun h61 => (h 61 h61).1 rfl, fun c hc => (h c hc).2⟩,
    fun h c hc => ⟨fun he => h.1 (he ▸ hc), h.2 c hc⟩⟩

def Clean (s : List UInt8) : Prop := 0 ∉ s ∧ sanityCheck s

theorem clean_of_forall (h : ∀ c ∈ s, isdigit c ∨ c = 45 ∨ c = 46) : Clean s := by
  have hdec : ∀ k < 256, (isdigit (.ofNat k) ∨ UInt8.ofNat k = 45 ∨ UInt8.ofNat k = 46) →
      UInt8.ofNat k ≠ 0 ∧ UInt8.ofNat k ∉ chars ['=', ';', '\n', '\r'] := by
    decide +kernel
  have hbyte : ∀ c ∈ s, c ≠ 0 ∧ c ∉ chars ['=', ';', '\n', '\r'] := by
    intro c hc
    simpa using hdec c.toNat c.toNat_lt (by simpa using h c hc)
  refine ⟨fun h0 => (hbyte 0 h0).1 rfl, ?_⟩
  rw [sanityCheck, all_eq_true]
  exact fun c hc => by simpa using (hbyte c hc).2

theorem clean_text (h : v.Stored cfg) : Clean (v.text env.fmt06f) := by
  cases v with
  | empty => exact h.elim
  | float f => exact h.elim
  | string s => exact ⟨h.2.2, h.2.1⟩
  | bool i =>
    simp only [Val.text]
    split <;> exact ⟨by decide, by decide⟩
  | int i =>
    refine clean_of_forall fun c hc => ?_
    simp only [Val.text, decimal_eq] at hc
    split at hc
    · rcases mem_cons.mp hc with rfl | hc
      · exact .inr (.inl rfl)
      · exact .inl (isdigit_of_mem_digits hc)
    · exact .inl (isdigit_of_mem_digits hc)
  | ipAddr ip =>
    refine clean_of_forall fun c hc => ?_
    simp only [Val.text, inetNtop_eq, ipHead, mem_append, mem_cons, not_mem_nil, or_false] at hc
    have hd : ∀ n, c ∈ digits n → isdigit c := fun n => isdigit_of_mem_digits
    grind

theorem chop_append {c : UInt8} {s w : List UInt8} (hs : ∀ x ∈ s, x ∉ chars [';', '\n', '\r'])
    (hw : ∀ x ∈ w, x ∈ chars [';', '\n', '\r']) : chop (c :: (s ++ w)) = c :: s := by
  rw [chop, reverse_append, dropWhile_append_of_pos (by simpa using hw), dropWhile_eq_self_iff.mpr, reverse_reverse]
  intro hpos
  have hmem : s.reverse[0] ∈ s := mem_reverse.mp (getElem_mem hpos)
  simpa using hs _ hmem

variable {env : Env F}

theorem loadLine_skip {line : List UInt8} (h : 61 ∉ line) : loadLine env cfg map line = map := by
  have hnone : scan (· == 61) (chop (cstr line)) = none := by
    refine scan_eq_none.mpr fun c hc => ?_
    have hline : c ∈ line := by
      have hsub : ∀ s : List UInt8, c ∈ chop s → c ∈ s := by
        intro s hcs
        cases s with
        | nil => exact hcs
        | cons d s =>
          rcases mem_cons.mp hcs with rfl | hcs
          · exact mem_cons_self
          · refine mem_cons_of_mem _ (mem_reverse.mp ?_)
            exact (dropWhile_suffix _).subset (mem_reverse.mp hcs)
      exact ( takeWhile_prefix _).subset (hsub _ hc)
    simpa using fun he : c = 61 => h (he ▸ hline)
  rw [loadLine, hnone]

def loadEntry (env : Env F) (cfg : Config) (map : List (Setting F)) (e : Setting F) : List (Setting F) :=
  match lookup e.key map with
  | none => map
  | some (a, x, b) =>
    a ++ parseInto env cfg e.key ((e.val.text env.fmt06f).take (254 - e.key.length)) x :: b

variable {e : Setting F}

theorem loadLine_piece (env : Env F) (map : List (Setting F)) (hk : KeyOk cfg e.key) (hv : e.val.Stored cfg)
    (hlen : e.key.length ≤ 254) :
    loadLine env cfg map ((e.key ++ 61 :: e.val.text env.fmt06f ++ [10]).take 255) =
      loadEntry env cfg map e := by
  obtain ⟨ht0, hts⟩ := clean_text env hv
  obtain ⟨ht61, hterm⟩ := sanityCheck_iff.mp hts
  obtain ⟨hk61, hkterm⟩ := sanityCheck_iff.mp hk.sane
  unfold loadEntry
  generalize e.val.text env.fmt06f = t at *
  obtain ⟨c, k, hck⟩ := exists_cons_of_ne_nil hk.ne_nil
  generalize hm : 254 - e.key.length = m
  have hpiece : (e.key ++ 61 :: t ++ [10]).take 255 =
      e.key ++ 61 :: (t.take m ++ [10].take (m - t.length)) := by
    rw [append_assoc, cons_append, take_append, take_of_length_le (by omega),
      show 255 - e.key.length = m + 1 by omega, take_succ_cons, take_append]
  have hw : ∀ x ∈ ([10] : List UInt8).take (m - t.length), x = 10 := by
    intro x hx
    simpa using mem_of_mem_take hx
  have hcstr : cstr (e.key ++ 61 :: (t.take m ++ [10].take (m - t.length))) =
      e.key ++ 61 :: (t.take m ++ [10].take (m - t.length)) := by
    refine cstr_of_not_mem ?_
    simp only [mem_append, mem_cons, not_or]
    refine ⟨hk.nul, by decide, fun h => ht0 (mem_of_mem_take h), fun h => ?_⟩
    cases hw 0 h
  have hchop : chop (e.key ++ 61 :: (t.take m ++ [10].take (m - t.length))) = e.key ++ 61 :: t.take m := by
    have hsplit : e.key ++ 61 :: (t.take m ++ [10].take (m - t.length)) =
        c :: ((k ++ 61 :: t.take m) ++ [10].take (m - t.length)) := by simp [hck]
    rw [hsplit, chop_append, hck, cons_append]
    · intro x hx
      simp only [mem_append, mem_cons] at hx
      rcases hx with hx | rfl | hx
      · exact hkterm x (hck ▸ mem_cons_of_mem _ hx)
      · decide
      · exact hterm x (mem_of_mem_take hx)
    · intro x hx
      rw [hw x hx]
      decide
  have hscan : scan (· == 61) (e.key ++ 61 :: t.take m) = some (e.key, 61, t.take m) :=
    scan_append (fun y hy => by simpa using fun h : y = 61 => hk61 (h ▸ hy)) rfl
  rw [hpiece, loadLine, hcstr, hchop, hscan]
  simp only [hk.alpha, Bool.true_eq_false, if_false]
  refine (if_neg (Nat.not_le.mpr hk.length_lt)).trans ?_
  cases lookup e.key map <;> rfl

theorem foldl_skip {s : List UInt8} (h61 : 61 ∉ s) (h10 : 10 ∉ s) (rest : List UInt8) :
    (readLines 255 (s ++ 10 :: rest)).foldl (loadLine env cfg) map =
      (readLines 255 rest).foldl (loadLine env cfg) map := by
  generalize hn : s.length = n
  induction n using Nat.strongRecOn generalizing s with
  | ind n ih =>
    rw [readLines_cons (by decide) (by simp), fgets_line h10, foldl_cons]
    split
    · rw [loadLine_skip (by simpa using h61)]
    · rw [loadLine_skip fun h => h61 (mem_of_mem_take h)]
      refine ih (n - 255) (by omega) (fun h => h61 (mem_of_mem_drop h))
        (fun h => h10 (mem_of_mem_drop h)) ?_
      rw [length_drop, hn]

theorem foldl_line (hk : KeyOk cfg e.key) (hv : e.val.Stored cfg) (hlen : e.key.length ≤ 254) (rest : List UInt8) :
    (readLines 255 (e.key ++ 61 :: e.val.text env.fmt06f ++ 10 :: rest)).foldl (loadLine env cfg) map =
      (readLines 255 rest).foldl (loadLine env cfg) (loadEntry env cfg map e) := by
  obtain ⟨-, hts⟩ := clean_text env hv
  obtain ⟨ht61, hterm⟩ := sanityCheck_iff.mp hts
  obtain ⟨hk61, hkterm⟩ := sanityCheck_iff.mp hk.sane
  have hpiece := loadLine_piece env map hk hv hlen
  generalize e.val.text env.fmt06f = t at *
  have h10 : 10 ∉ e.key ++ 61 :: t := by
    simp only [mem_append, mem_cons, not_or]
    exact ⟨fun h => hkterm 10 h (by decide), by decide, fun h => hterm 10 h (by decide)⟩
  rw [readLines_cons (by decide) (by simp), fgets_line h10, foldl_cons]
  split_ifs with h
  · rw [take_of_length_le (by rw [length_append]; exact h)] at hpiece
    rw [hpiece]
  · rw [take_append_of_le_length (by omega)] at hpiece
    rw [hpiece, foldl_skip]
    · -- what is behind the first piece is text of the value
      rw [drop_append, drop_of_length_le (by omega), nil_append,
        show 255 - e.key.length = (254 - e.key.length) + 1 by omega, drop_succ_cons]
      exact fun h => ht61 (mem_of_mem_drop h)
    · exact fun h => h10 (mem_of_mem_drop h)

theorem printMap_cons {fmt06f : F → List UInt8} (hu : e.val.ty ≠ .empty) :
    printMap fmt06f (e :: map) = e.key ++ 61 :: e.val.text fmt06f ++ 10 :: printMap fmt06f map := by
  obtain ⟨key, v⟩ := e
  have h61 : chars ['='] = [61] := rfl
  have h10 : chars ['\n'] = [10] := rfl
  cases v <;> simp [printMap, Val.ty, h61, h10] at hu ⊢

theorem printMap_free {fmt06f : F → List UInt8} {r : List (Setting F)} (hr : ∀ e ∈ r, e = blank) :
    printMap fmt06f r = [] := by
  cases r with
  | nil => rfl
  | cons e r => rw [hr e (by simp)]; rfl

theorem loadLines_printMap {u r : List (Setting F)} (map : List (Setting F))
    (hu : ∀ e ∈ u, (KeyOk cfg e.key ∧ e.val.Stored cfg) ∧ e.key.length ≤ 254) (hr : ∀ e ∈ r, e = blank) :
    loadLines env cfg (printMap env.fmt06f (u ++ r)) map = u.foldl (loadEntry env cfg) map := by
  induction u generalizing map with
  | nil => rw [nil_append, printMap_free hr]; rfl
  | cons e u ih =>
    obtain ⟨⟨⟨hk, hv⟩, hlen⟩, hu⟩ := forall_mem_cons.mp hu
    rw [cons_append, printMap_cons hv.ty_ne, loadLines, foldl_line hk hv hlen, foldl_cons, ← ih _ hu]
    rfl

def reload (env : Env F) (cfg : Config) (e : Setting F) : Setting F :=
  parseInto env cfg e.key ((e.val.text env.fmt06f).take (254 - e.key.length)) blank

theorem eq_empty_of_not_used (h : e.used = false) : e.val = .empty := by
  obtain ⟨key, v⟩ := e
  cases v <;> simp [Setting.used, Val.ty] at h ⊢

theorem loadEntry_free {u r : List (Setting F)} {e x : Setting F} (hu : ∀ y ∈ u, y.used ∧ y.key ≠ e.key)
    (hx : x.used = false) : loadEntry env cfg (u ++ x :: r) e = u ++ reload env cfg e :: r := by
  have hl : lookup e.key (u ++ x :: r) = some (u, x, r) := lookup_eq_some.mpr ⟨rfl, hu, .inr hx⟩
  have hval : ∀ t, parseInto env cfg e.key t x = parseInto env cfg e.key t blank := by
    intro t
    rw [parseInto, parseInto, eq_empty_of_not_used hx]
    rfl
  rw [loadEntry, hl]
  simp only [hval, reload]

variable {u : List (Setting F)}

theorem foldl_loadEntry (done : List (Setting F)) {k : Nat} (hs : ∀ e ∈ u, reload env cfg e = e)
    (hp : Packed (done ++ u)) (hused : ∀ e ∈ done ++ u, e.used) (hk : u.length ≤ k) :
    u.foldl (loadEntry env cfg) (done ++ List.replicate k blank) =
      done ++ u ++ List.replicate (k - u.length) blank := by
  induction u generalizing done k with
  | nil => simp
  | cons e u ih =>
    obtain ⟨k, rfl⟩ : ∃ k', k = k' + 1 := ⟨k - 1, by rw [length_cons] at hk; omega⟩
    have hdone : ∀ y ∈ done, y.used ∧ y.key ≠ e.key := fun y hy =>
      (pairwise_append.mp hp).2.2 y hy e (by simp) (hused e (by simp))
    rw [foldl_cons, replicate_succ, loadEntry_free hdone used_blank, hs e (by simp)]
    have happ : done ++ e :: List.replicate k blank = (done ++ [e]) ++ List.replicate k blank := by simp
    rw [happ, ih _ (fun x hx => hs x (by simp [hx])) (by simpa using hp) (by simpa using hused)
      (by simpa using hk)]
    simp

theorem takeWhile_foldl_loadEntry (env : Env F) (cfg : Config) (done : List (Setting F)) {r : List (Setting F)}
    (hp : (done ++ u).Pairwise fun x y => x.key ≠ y.key) (hdone : ∀ e ∈ done, e.used)
    (hr : ∀ e ∈ r, e.used = false) (hlen : u.length ≤ r.length) :
    (u.foldl (loadEntry env cfg) (done ++ r)).takeWhile Setting.used =
      done ++ (u.map (reload env cfg)).filter Setting.used := by
  induction u generalizing done r with
  | nil =>
    simp only [foldl_nil, map_nil, filter_nil, append_nil]
    rw [takeWhile_append_of_pos hdone]
    cases r with
    | nil => simp
    | cons x r => simp [hr x (by simp)]
  | cons e u ih =>
    obtain ⟨x, r, rfl⟩ := exists_cons_of_ne_nil (l := r) (by rintro rfl; simp at hlen)
    rw [forall_mem_cons] at hr
    have hkeys : ∀ y ∈ done, y.used ∧ y.key ≠ e.key := fun y hy =>
      ⟨hdone y hy, (pairwise_append.mp hp).2.2 y hy e (by simp)⟩
    rw [foldl_cons, loadEntry_free hkeys hr.1, map_cons]
    have hkey : (reload env cfg e).used → (reload env cfg e).key = e.key := parseInto_used.2
    cases hused : (reload env cfg e).used with
    | true =>
      have happ : done ++ reload env cfg e :: r = (done ++ [reload env cfg e]) ++ r := by simp
      rw [happ, ih _ _ _ hr.2 (by simpa using hlen), filter_cons_of_pos hused]
      · simp
      · rw [append_assoc, singleton_append]
        rw [pairwise_append, pairwise_cons] at hp ⊢
        obtain ⟨h₁, ⟨h₂, h₃⟩, h₄⟩ := hp
        refine ⟨h₁, ⟨fun y hy => hkey hused ▸ h₂ y hy, h₃⟩, fun y hy z hz => ?_⟩
        rcases mem_cons.mp hz with rfl | hz
        · exact hkey hused ▸ h₄ y hy e (by simp)
        · exact h₄ y hy z (by simp [hz])
      · intro y hy
        rcases mem_append.mp hy with hy | hy
        · exact hdone y hy
        · rw [mem_singleton.mp hy]
          exact hused
    | false =>
      rw [filter_cons_of_neg (by simp [hused])]
      refine ih _ ?_ hdone ?_ (by simpa using Nat.le_of_succ_le hlen)
      · refine hp.sublist ?_
        simp
      · rw [forall_mem_cons]
        exact ⟨hused, hr.2⟩

/-! ## The round trip -/

/-- The entry is stored in a form that `load_text` reads back: a string looks like one, and the line fits the buffer.
The exception is an address cut right behind its third dot that a failing `inet_pton` leaves in a blank entry. -/
def Survives (env : Env F) (e : Setting F) : Prop :=
  (∀ s, e.val = .string s → LooksLikeString s) ∧
    (e.key.length + 1 + (e.val.text env.fmt06f).length ≤ 255 ∨
      ∃ ip, e.val = .ipAddr ip ∧ e.key.length + 1 + (ipHead ip).length = 255 ∧
        env.ptonFail (ipHead ip) ⟨0, 0, 0, 0⟩ = ip)

theorem reload_eq_iff_parseValue (hv : e.val.Stored cfg) :
    reload env cfg e = e ↔
      parseValue env cfg .empty ((e.val.text env.fmt06f).take (254 - e.key.length)) = some e.val := by
  obtain ⟨key, v⟩ := e
  have hne := hv.ty_ne
  rcases hparse : parseValue env cfg .empty ((v.text env.fmt06f).take (254 - key.length)) with _ | w
  · have hreload : reload env cfg ⟨key, v⟩ = ⟨key, .empty⟩ := by simp only [reload, parseInto, blank, hparse]
    simp only [hreload, Setting.mk.injEq, reduceCtorEq, iff_false, not_and]
    rintro - rfl
    exact hne rfl
  · have hreload : reload env cfg ⟨key, v⟩ = if w.ty = .empty then ⟨[], w⟩ else ⟨key, w⟩ := by
      simp only [reload, parseInto, blank, hparse]
    rw [hreload]
    split_ifs with hw
    · simp only [Setting.mk.injEq, Option.some.injEq]
      constructor
      · rintro ⟨-, rfl⟩
        exact absurd hw hne
      · rintro rfl
        exact absurd hw hne
    · simp

theorem reload_eq_iff (hv : e.val.Stored cfg) (hlen : e.key.length ≤ 254) : reload env cfg e = e ↔ Survives env e := by
  rw [reload_eq_iff_parseValue hv]
  obtain ⟨key, v⟩ := e
  simp only at hlen hv
  cases v with
  | empty => exact hv.elim
  | float f => exact hv.elim
  | string s =>
    simp only [Val.text, parseValue_string env hv.1, Survives, Val.string.injEq, forall_eq', reduceCtorEq,
      false_and, exists_false, or_false]
    exact and_congr_right fun _ => by omega
  | int i =>
    simp only [Val.text, parseValue_int, Survives, reduceCtorEq, false_implies, implies_true, true_and,
      false_and, exists_false, or_false]
    omega
  | bool i =>
    simp only [parseValue_bool env cfg hv, Survives, reduceCtorEq, false_implies, implies_true, true_and,
      false_and, exists_false, or_false]
    omega
  | ipAddr ip =>
    simp only [Val.text, parseValue_ipAddr, Survives, reduceCtorEq, false_implies, implies_true, true_and,
      Val.ipAddr.injEq, exists_eq_left']
    refine or_congr (by omega) (and_congr_left fun _ => ?_)
    omega

theorem key_length_le (env : Env F) (cfg : Config) (text : List UInt8)
    (h : e ∈ loadLines env cfg text (blankMap cfg)) : e.key.length ≤ 254 := by
  have hfold : ∀ (lines : List (List UInt8)) (map : List (Setting F)), (∀ l ∈ lines, l.length ≤ 255) →
      (∀ e ∈ map, e.key.length ≤ 254) →
      ∀ e ∈ lines.foldl (loadLine env cfg) map, e.key.length ≤ 254 := by
    intro lines
    induction lines with
    | nil => exact fun map _ hmap => hmap
    | cons line lines ih =>
      intro map hlines hmap
      rw [forall_mem_cons] at hlines
      refine ih _ hlines.2 ?_
      rcases loadLine_cases env cfg map line with hm | ⟨key, t, a, e, b, hl, hlt, hm⟩
      · rwa [hm]
      · rw [hm]
        obtain ⟨rfl, -, -⟩ := lookup_eq_some.mp hl
        refine forall_mem_replace hmap ?_
        have hkey : (parseInto env cfg key t e).key = key ∨ (parseInto env cfg key t e).key = [] := by
          unfold parseInto
          split
          · exact .inl rfl
          · split <;> simp
        rcases hkey with hkey | hkey
        · rw [hkey]
          omega
        · simp [hkey]
  refine hfold _ _ (fun l hl => length_le_of_mem_readLines hl) (fun e he => ?_) e h
  rw [eq_of_mem_replicate he]
  simp [blank]

theorem filter_map_eq_self {f : Setting F → Setting F} (h : (u.map f).filter Setting.used = u) : ∀ e ∈ u, f e = e := by
  have hlen : ((u.map f).filter Setting.used).length = (u.map f).length := by rw [h, length_map]
  rw [filter_eq_self.mpr (length_filter_eq_length_iff.mp hlen)] at h
  exact map_inj_left.mp (h.trans (map_id u).symm)

theorem Built.split (hb : Built cfg map) :
    ∃ u r, map = u ++ r ∧ (∀ e ∈ u, e.used) ∧ (∀ e ∈ r, e = blank) ∧ (u.Pairwise fun x y => x.key ≠ y.key) ∧
      (∀ e ∈ u, KeyOk cfg e.key ∧ e.val.Stored cfg) ∧ u.length + r.length = cfg.mapSize := by
  obtain ⟨hsize, hp, hok⟩ := hb.invariant
  obtain ⟨u, r, rfl, hu, hr, hkeys⟩ := packed_split hp
  refine ⟨u, r, rfl, hu, fun e he => ?_, hkeys, fun e he => ?_, by rwa [length_append] at hsize⟩
  · rcases hok e (mem_append_right u he) with h | h
    · exact h
    · exact absurd (used_iff.mpr h.2.ty_ne) (by simp [hr e he])
  · rcases hok e (mem_append_left r he) with rfl | h
    · simpa using hu _ he
    · exact h

/-- **The text round trip.** The text saved of a map that was built loads into an empty map as that map exactly where
each entry survives. -/
theorem roundTrip_iff (env : Env F) (hb : Built cfg map) (fs : Files) :
    ((loadText (replay FileOp.apply fs (saveText (printMap env.fmt06f map)))).map fun t =>
        loadLines env cfg t (blankMap cfg)) = some map ↔
      ∀ e ∈ map, e.used → Survives env e := by
  obtain ⟨u, r, rfl, hu, hrblank, hkeys, huok, hsize⟩ := hb.split
  have hr : ∀ e ∈ r, e.used = false := fun e he => hrblank e he ▸ rfl
  have hulen : u.length ≤ cfg.mapSize := by omega
  have hreplicate : r = List.replicate (cfg.mapSize - u.length) blank := by
    rw [← hsize, Nat.add_sub_cancel_left]
    exact eq_replicate_of_mem hrblank
  rw [replay_saveText, loadText_eq]
  simp only [Option.some_or, Option.map_some, Option.some.injEq]
  have hgoal : (∀ e ∈ u ++ r, e.used → Survives env e) ↔ ∀ e ∈ u, Survives env e := by
    constructor
    · exact fun h e he => h e (by simp [he]) (hu e he)
    · intro h e he hused
      rcases mem_append.mp he with he | he
      · exact h e he
      · simp [hr e he] at hused
  rw [hgoal]
  constructor
  · intro h e he
    -- the keys fit, since they were loaded, so every entry comes from its own line
    have hfit : ∀ x ∈ u, x.key.length ≤ 254 := fun x hx =>
      key_length_le env cfg (printMap env.fmt06f (u ++ r)) (by rw [h]; simp [hx])
    rw [loadLines_printMap _ (fun x hx => ⟨huok x hx, hfit x hx⟩) hrblank] at h
    have hfree : ∀ x ∈ (blankMap cfg : List (Setting F)), x.used = false := by
      intro x hx
      rw [eq_of_mem_replicate hx]
      rfl
    have htw := takeWhile_foldl_loadEntry env cfg [] hkeys (by simp) hfree (by simpa [blankMap] using hulen)
    rw [nil_append, nil_append, h, takeWhile_append_of_pos hu] at htw
    have hrnil : r.takeWhile Setting.used = [] := by
      cases r with
      | nil => rfl
      | cons x r => simp [hr x (by simp)]
    rw [hrnil, append_nil] at htw
    exact (reload_eq_iff (huok e he).2 (hfit e he)).mp (filter_map_eq_self htw.symm e he)
  · intro h
    have hfit : ∀ x ∈ u, x.key.length ≤ 254 := by
      intro x hx
      rcases (h x hx).2 with h | ⟨ip, -, h, -⟩ <;> omega
    rw [loadLines_printMap _ (fun x hx => ⟨huok x hx, hfit x hx⟩) hrblank]
    have hfold := foldl_loadEntry [] (fun e he => (reload_eq_iff (huok e he).2 (hfit e he)).mpr (h e he))
      (by rw [nil_append]; exact (pairwise_append.mp hb.invariant.2.1).1) (by simpa using hu) hulen
    rw [hreplicate]
    simpa [blankMap] using hfold

def oneString (s : List Char) : List (Setting Empty) :=
  (settingsCreate ⟨1, 8, 8⟩ (chars ['a']) (.string (chars s)) (blankMap ⟨1, 8, 8⟩)).2

theorem built_oneString {s : List Char} (hs : 0 ∉ chars s) : Built ⟨1, 8, 8⟩ (oneString s) :=
  .create .init (by decide) hs

theorem roundTrip_letter :
    (∀ e ∈ oneString ['b'], e.used → Survives plainEnv e) ∧
      ((loadText (replay FileOp.apply ⟨none, none⟩ (saveText (printMap plainEnv.fmt06f (oneString ['b']))))).map
        fun t => loadLines plainEnv ⟨1, 8, 8⟩ t (blankMap ⟨1, 8, 8⟩)) = some (oneString ['b']) := by
  have hs : ∀ e ∈ oneString ['b'], e.used → Survives plainEnv e := by
    intro e he _
    have he : e = ⟨chars ['a'], .string (chars ['b'])⟩ := mem_singleton.mp he
    subst he
    exact ⟨fun s hs => Val.string.inj hs ▸ by decide, .inl (by decide)⟩
  exact ⟨hs, (roundTrip_iff plainEnv (built_oneString (by decide)) ⟨none, none⟩).mpr hs⟩

theorem roundTrip_digits_lost :
    Built ⟨1, 8, 8⟩ (oneString ['1', '2']) ∧
      ((loadText (replay FileOp.apply ⟨none, none⟩
          (saveText (printMap plainEnv.fmt06f (oneString ['1', '2']))))).map
        fun t => loadLines plainEnv ⟨1, 8, 8⟩ t (blankMap ⟨1, 8, 8⟩)) =
          some [⟨chars ['a'], .int 12⟩] ∧
      oneString ['1', '2'] ≠ [⟨chars ['a'], .int 12⟩] :=
  ⟨built_oneString (by decide), by decide +kernel, by decide +kernel⟩

end NuttxApps.Settings
