import NuttxApps.Framework.Replay
import Mathlib.Algebra.GroupWithZero.Nat
import Mathlib.Data.List.Perm.Subperm

/-!
# Media focus

A request is compared with the top of the stack of clients by the matrix of the streams: the client becomes the top and
the others are told what that means for them, or it is put below the top, or it is refused. `coherent_iff`: while no top
dies unseen, every client was told last what the matrix says against the top, exactly if the matrix gives a client below
the top the same on request as later (`Agrees`).
-/

namespace NuttxApps.Media

open Replay Option

def focusPlay : Nat := 0

def focusStop : Nat := 1

def focusPlayButSilent : Nat := 3

def focusPlayWithDuck : Nat := 4

structure FocusCell where
  (proInter pasInter : Nat)

/-- `media_focus`: the streams, what a stream of the row means for one of the column, and the depth of the stack. -/
structure Focus (n : Nat) where
  streams : Vector (List UInt8) n
  matrix : Fin n → Fin n → FocusCell
  depth : Nat

open List

inductive FocusState
  | top
  | quit
  | under
deriving DecidableEq

/-- `app_focus_id`, and what the client was told last. -/
structure Client (n : Nat) where
  clientId : Nat
  focusLevel : Fin n
  focusState : FocusState
  told : Nat
deriving DecidableEq

variable {n : Nat} (F : Focus n)

def playArbitrate (topId curId : Client n) : Nat :=
  match curId.focusState with
  | .top => focusPlay
  | .quit => focusStop
  | .under => (F.matrix topId.focusLevel curId.focusLevel).pasInter

def stackCallback (curId reqId : Client n) : Client n :=
  { reqId with told := playArbitrate F curId reqId }

/-- A client behind a top that is dead becomes the top, and is told so if its thread is alive. -/
def promoted (early : Nat → Bool) (dead : Option (Client n)) (c : Client n) : Client n :=
  match dead with
  | none => c
  | some top =>
    let c := { c with focusState := .top }
    if early c.clientId then stackCallback F top c else c

/-- `app_focus_stack_useless_clear`. The thread of a client is looked at when its turn comes (`late`), and before that
behind a top that is dead (`early`); `dead` is that top. -/
def uselessClear (F : Focus n) (early late : Nat → Bool) : Option (Client n) → List (Client n) → List (Client n)
  | _, [] => []
  | dead, c :: rest =>
    let c := promoted F early dead c
    if late c.clientId then c :: uselessClear F early late none rest
    else uselessClear F early late (if c.focusState = .top then some c else none) rest

variable (stack : List (Client n))

def freeClientId : Option Nat :=
  if stack.length = F.depth then none
  else (range F.depth).find? fun i => i ∉ stack.map Client.clientId

/-- `app_focus_stack_push`, with the callback blocked. -/
def stackPush (value : Client n) : List (Client n) → List (Client n)
  | [] => [{ value with focusState := .top }]
  | head :: rest => { value with focusState := .top } :: { head with focusState := .under } :: rest

def topChangeBroadcast : List (Client n) → List (Client n)
  | [] => []
  | head :: rest => (head :: rest).map fun c => if c.focusState = .top then c else stackCallback F head c

/-- `media_focus_focus_id_insert` and `app_focus_stack_insert`, which finds no place before the top. -/
def focusIdInsert (value : Client n) (stack : List (Client n)) : Option (List (Client n)) :=
  let index := stack.findIdx fun c => value.focusLevel ≤ c.focusLevel
  if index = 0 then none else some (stack.take index ++ { value with focusState := .under } :: stack.drop index)

def stackPop : List (Client n) → List (Client n)
  | [] => []
  | [_] => []
  | head :: c :: rest => stackCallback F { head with focusState := .quit } { c with focusState := .top } :: rest

def stackDelete (clientId : Nat) : List (Client n) → List (Client n)
  | [] => []
  | head :: rest =>
    if head.clientId = clientId then stackPop F (head :: rest)
    else (head :: rest).eraseP fun c => c.clientId = clientId

structure Outcome (n : Nat) (α : Type) where
  stack : List (Client n)
  placed : Option Nat
  ret : α

def Focus.level (stream : List UInt8) : Option (Fin n) :=
  (finRange n).find? fun i => F.streams[i] = stream

/-- `media_focus_request_`, from where the stack is cleared; the suggestion and the client's number. -/
def requestLevel (level : Fin n) (stack : List (Client n)) : Outcome n (Option (Nat × Nat)) :=
  match freeClientId F stack with
  | none => ⟨stack, none, none⟩
  | some validId =>
    match stack with
    | [] => ⟨stackPush ⟨validId, level, .quit, focusPlay⟩ [], none, some (focusPlay, validId)⟩
    | top :: rest =>
      let ret := (F.matrix level top.focusLevel).proInter
      let newId : Client n := ⟨validId, level, .quit, ret⟩
      if ret = focusPlay then
        ⟨topChangeBroadcast F (stackPush newId (top :: rest)), none, some (ret, validId)⟩
      else if ret = focusPlayButSilent ∨ ret = focusPlayWithDuck then
        match focusIdInsert newId (top :: rest) with
        | none => ⟨top :: rest, none, none⟩
        | some stack => ⟨stack, some validId, some (ret, validId)⟩
      else ⟨top :: rest, none, some (focusStop, validId + F.depth)⟩

def abandonId (clientId : Nat) : List (Client n) → Outcome n Bool
  | [] => ⟨[], none, false⟩
  | top :: rest =>
    if top.clientId = clientId then ⟨topChangeBroadcast F (stackDelete F clientId (top :: rest)), none, true⟩
    else ⟨stackDelete F clientId (top :: rest), none, true⟩

/-- The two calls; a handle is the number of a client above 16 bits. -/
inductive Call
  | request (stream : List UInt8)
  | abandon (handle : Nat)

structure Event where
  call : Call
  (early late : Nat → Bool)
  early_of_late : ∀ i, late i → early i

variable (e : Event)

def Event.cleared (stack : List (Client n)) : List (Client n) :=
  uselessClear F e.early e.late none stack

def focusStep : List (Client n) × Option Nat :=
  match e.call with
  | .request stream =>
    match F.level stream with
    | none => (stack, none)
    | some level => let o := requestLevel F level (e.cleared F stack); (o.stack, o.placed)
  | .abandon handle =>
    if handle < 16 - 1 then (stack, none)
    else let o := abandonId F (handle >>> 16) (e.cleared F stack); (o.stack, o.placed)

def focusNext : List (Client n) := (focusStep F stack e).1

/-- The top was told to play, and the others what the matrix says, except for a client. -/
def CoherentBut (placed : Option Nat) : List (Client n) → Prop
  | [] => True
  | top :: rest => top.told = focusPlay ∧ ∀ c ∈ rest, some c.clientId ≠ placed →
      c.told = (F.matrix top.focusLevel c.focusLevel).pasInter

instance (F : Focus n) (placed : Option Nat) : ∀ stack, Decidable (CoherentBut F placed stack)
  | [] => .isTrue trivial
  | _ :: rest => inferInstanceAs (Decidable (_ ∧ ∀ c ∈ rest, _ → _))

/-- The clients are coherent behind a call, except for one that it has put below the top. -/
def Coherent : Prop :=
  CoherentBut F (focusStep F stack e).2 (focusStep F stack e).1

instance (F : Focus n) (stack : List (Client n)) (e : Event) : Decidable (Coherent F stack e) :=
  inferInstanceAs (Decidable (CoherentBut ..))

def Refreshes : Prop :=
  match e.call with
  | .request stream => ∀ level, F.level stream = some level → (freeClientId F (e.cleared F stack)).isSome ∧
      ∀ top ∈ (e.cleared F stack).head?, (F.matrix level top.focusLevel).proInter = focusPlay
  | .abandon handle => 16 - 1 ≤ handle → ∀ top ∈ (e.cleared F stack).head?, top.clientId = handle >>> 16

def TopLives : Prop :=
  (∀ top ∈ stack.head?, e.late top.clientId) ∨ Refreshes F stack e

/-- A client that is put below the top is told what it is told later. -/
def Focus.Agrees : Prop :=
  ∀ a b new top, F.level a = some new → F.level b = some top → top < new →
    (F.matrix new top).proInter = focusPlayButSilent ∨ (F.matrix new top).proInter = focusPlayWithDuck →
      (F.matrix top new).pasInter = (F.matrix new top).proInter

/-- The first is the top and was told so, and the others are under it; their levels are those of streams. -/
structure Topped (F : Focus n) (stack : List (Client n)) : Prop where
  head : ∀ top ∈ stack.head?, top.focusState = .top ∧ top.told = focusPlay
  tail : ∀ c ∈ stack.tail, c.focusState = .under
  level : ∀ c ∈ stack, ∃ a, F.level a = some c.focusLevel

def Settled : Prop :=
  ∀ top ∈ stack.head?, ∀ c ∈ stack.tail, c.told = (F.matrix top.focusLevel c.focusLevel).pasInter

variable {F : Focus n} {early late : Nat → Bool} {stack rest : List (Client n)} {top c : Client n}

theorem topped_nil : Topped F [] := ⟨nofun, nofun, nofun⟩

theorem topped_cons (hstate : top.focusState = .top) (htold : top.told = focusPlay)
    (hrest : ∀ c ∈ rest, c.focusState = .under) (hlevel : ∀ c ∈ top :: rest, ∃ a, F.level a = some c.focusLevel) :
    Topped F (top :: rest) := by
  refine ⟨fun c hc => ?_, hrest, hlevel⟩
  obtain rfl := some.inj hc
  exact ⟨hstate, htold⟩

theorem settled_cons (h : ∀ c ∈ rest, c.told = (F.matrix top.focusLevel c.focusLevel).pasInter) :
    Settled F (top :: rest) := by
  intro c hc
  obtain rfl := some.inj hc
  exact h

theorem uselessClear_under (h : ∀ c ∈ rest, c.focusState = .under) :
    uselessClear F early late none rest = rest.filter fun c => late c.clientId := by
  induction rest with
  | nil => rfl
  | cons c rest ih =>
    rw [forall_mem_cons] at h
    have hunder : (if c.focusState = .top then some c else none) = none := if_neg (by rw [h.1]; decide)
    rw [uselessClear, filter_cons, promoted, hunder, ih h.2]

theorem promoted_some (dead : Client n) (hearly : early c.clientId) :
    promoted F early (some dead) c = { c with focusState := .top, told := focusPlay } := by
  rw [promoted]
  rw [if_pos hearly]
  rfl

theorem promoted_eq (F : Focus n) (early : Nat → Bool) (dead : Option (Client n)) (c : Client n) :
    (promoted F early dead c).clientId = c.clientId ∧ (promoted F early dead c).focusLevel = c.focusLevel ∧
      (dead.isSome → (promoted F early dead c).focusState = .top) := by
  rcases dead with _ | top
  · exact ⟨rfl, rfl, nofun⟩
  · rw [promoted]
    split_ifs
    all_goals exact ⟨rfl, rfl, fun _ => rfl⟩

theorem uselessClear_dead (hlate : ∀ i, late i → early i) (h : ∀ c ∈ rest, c.focusState = .under)
    (hlevel : ∀ c ∈ rest, ∃ a, F.level a = some c.focusLevel) (dead : Client n) :
    Topped F (uselessClear F early late (some dead) rest) := by
  induction rest generalizing dead with
  | nil => exact topped_nil
  | cons c rest ih =>
    rw [forall_mem_cons] at h hlevel
    obtain ⟨hid, hlvl, hstate⟩ := promoted_eq F early (some dead) c
    rw [uselessClear, hid, if_pos (hstate rfl)]
    split_ifs with halive
    · rw [promoted_some dead (hlate _ halive), uselessClear_under h.2]
      refine topped_cons rfl rfl (fun c' hc' => h.2 c' (mem_of_mem_filter hc')) ?_
      exact forall_mem_cons.mpr ⟨hlevel.1, fun c' hc' => hlevel.2 c' (mem_of_mem_filter hc')⟩
    · exact ih h.2 hlevel.2 _

theorem uselessClear_alive (h : Topped F (top :: rest)) (halive : late top.clientId) :
    uselessClear F early late none (top :: rest) = top :: rest.filter fun c => late c.clientId := by
  have hrest : ∀ c ∈ rest, c.focusState = .under := h.tail
  rw [uselessClear, promoted, if_pos halive, uselessClear_under hrest]

theorem Topped.subset (h : Topped F (top :: rest)) {kept : List (Client n)} (hkept : kept ⊆ rest) :
    Topped F (top :: kept) := by
  obtain ⟨hstate, htold⟩ := h.head top rfl
  exact topped_cons hstate htold (fun c hc => h.tail c (hkept hc))
    fun c hc => h.level c (cons_subset_cons _ hkept hc)

theorem Topped.cleared (h : Topped F stack) (e : Event) : Topped F (e.cleared F stack) := by
  match stack with
  | [] => exact topped_nil
  | top :: rest =>
    by_cases halive : e.late top.clientId
    · rw [Event.cleared, uselessClear_alive h halive]
      exact h.subset (filter_subset_self _)
    · rw [Event.cleared, uselessClear, promoted, if_neg halive, if_pos (h.head top rfl).1]
      exact uselessClear_dead e.early_of_late h.tail (forall_mem_cons.mp h.level).2 top

theorem Settled.cleared (h : Settled F stack) (htop : Topped F stack) (e : Event)
    (halive : ∀ top ∈ stack.head?, e.late top.clientId) : Settled F (e.cleared F stack) := by
  match stack with
  | [] => exact h
  | top :: rest =>
    rw [Event.cleared, uselessClear_alive htop (halive top rfl)]
    exact settled_cons fun c hc => h top rfl c (mem_of_mem_filter hc)

theorem Topped.broadcast (h : Topped F stack) :
    Topped F (topChangeBroadcast F stack) ∧ Settled F (topChangeBroadcast F stack) := by
  match stack with
  | [] => exact ⟨topped_nil, nofun⟩
  | top :: rest =>
    obtain ⟨hstate, htold⟩ := h.head top rfl
    have hrest : topChangeBroadcast F (top :: rest) = top :: rest.map (stackCallback F top) := by
      rw [topChangeBroadcast, map_cons, if_pos hstate]
      congr 1
      refine map_congr_left fun c hc => ?_
      rw [if_neg (by rw [h.tail c hc]; decide)]
    have hlevel := forall_mem_cons.mp h.level
    rw [hrest]
    constructor
    · refine topped_cons hstate htold (forall_mem_map.mpr h.tail) ?_
      exact forall_mem_cons.mpr ⟨hlevel.1, forall_mem_map.mpr hlevel.2⟩
    · refine settled_cons (forall_mem_map.mpr fun c hc => ?_)
      show playArbitrate F top c = _
      rw [playArbitrate, h.tail c hc]
      rfl

variable {value : Client n}

theorem Topped.push (h : Topped F stack) (htold : value.told = focusPlay)
    (hlevel : ∃ a, F.level a = some value.focusLevel) : Topped F (stackPush value stack) := by
  match stack with
  | [] => exact topped_cons rfl htold nofun (forall_mem_singleton.mpr hlevel)
  | top :: rest =>
    refine topped_cons rfl htold (forall_mem_cons.mpr ⟨rfl, h.tail⟩) ?_
    exact forall_mem_cons.mpr ⟨hlevel, forall_mem_cons.mpr (forall_mem_cons.mp h.level)⟩

theorem Topped.pop (h : Topped F stack) : Topped F (stackPop F stack) := by
  match stack with
  | [] => exact topped_nil
  | [_] => exact topped_nil
  | top :: c :: rest =>
    have htail := forall_mem_cons.mp h.tail
    have hlevel := forall_mem_cons.mp (forall_mem_cons.mp h.level).2
    exact topped_cons rfl rfl htail.2 (forall_mem_cons.mpr hlevel)

theorem stackDelete_ne {clientId : Nat} (hne : top.clientId ≠ clientId) (rest : List (Client n)) :
    stackDelete F clientId (top :: rest) = top :: rest.eraseP fun c => c.clientId = clientId := by
  rw [stackDelete, if_neg hne, eraseP_cons_of_neg (by simpa using hne)]

theorem focusIdInsert_cons (value top : Client n) (rest : List (Client n)) :
    ∃ i, (∀ c ∈ rest.take i, c.focusLevel < value.focusLevel) ∧
      focusIdInsert value (top :: rest) =
        if top.focusLevel < value.focusLevel then
          some (top :: (rest.take i ++ { value with focusState := .under } :: rest.drop i)) else none := by
  refine ⟨rest.findIdx fun c => value.focusLevel ≤ c.focusLevel, fun c hc => ?_, ?_⟩
  · obtain ⟨j, hj, rfl⟩ := mem_take_iff_getElem.mp hc
    simpa using not_of_lt_findIdx (Nat.lt_of_lt_of_le hj (Nat.min_le_left ..))
  · by_cases hlt : top.focusLevel < value.focusLevel
    · rw [if_pos hlt, focusIdInsert, findIdx_cons, decide_eq_false (Fin.not_le.mpr hlt)]
      rfl
    · rw [if_neg hlt, focusIdInsert, findIdx_cons, decide_eq_true (Fin.not_lt.mp hlt)]
      rfl

theorem focusIdInsert_some (h : focusIdInsert value (top :: rest) = some stack) :
    top.focusLevel < value.focusLevel ∧
      ∃ i, stack = top :: (rest.take i ++ { value with focusState := .under } :: rest.drop i) := by
  obtain ⟨i, -, hinsert⟩ := focusIdInsert_cons value top rest
  rw [hinsert] at h
  split_ifs at h with hlt
  exact ⟨hlt, i, (some.inj h).symm⟩

theorem Topped.insert (h : Topped F (top :: rest)) (i : Nat) (hlevel : ∃ a, F.level a = some value.focusLevel) :
    Topped F (top :: (rest.take i ++ { value with focusState := .under } :: rest.drop i)) := by
  obtain ⟨hstate, htold⟩ := h.head top rfl
  have hlevels := forall_mem_cons.mp h.level
  refine topped_cons hstate htold (fun c hc => ?_) (forall_mem_cons.mpr ⟨hlevels.1, fun c hc => ?_⟩)
  all_goals
    rw [mem_append, mem_cons] at hc
    rcases hc with hc | rfl | hc
  · exact h.tail c (mem_of_mem_take hc)
  · rfl
  · exact h.tail c (mem_of_mem_drop hc)
  · exact hlevels.2 c (mem_of_mem_take hc)
  · exact hlevel
  · exact hlevels.2 c (mem_of_mem_drop hc)

theorem Settled.insert (h : Settled F (top :: rest)) (i : Nat)
    (htold : value.told = (F.matrix top.focusLevel value.focusLevel).pasInter) :
    Settled F (top :: (rest.take i ++ { value with focusState := .under } :: rest.drop i)) := by
  refine settled_cons fun c hc => ?_
  rw [mem_append, mem_cons] at hc
  rcases hc with hc | rfl | hc
  · exact h top rfl c (mem_of_mem_take hc)
  · exact htold
  · exact h top rfl c (mem_of_mem_drop hc)

/-! ## Calls keep the stack in order -/

variable {level : Fin n}

theorem Topped.requestLevel (h : Topped F stack) (hlevel : ∃ a, F.level a = some level) :
    Topped F (Media.requestLevel F level stack).stack := by
  rw [Media.requestLevel]
  split
  · exact h
  · split
    · exact h.push rfl hlevel
    · dsimp only
      split_ifs with hplay hbelow
      · exact (h.push hplay hlevel).broadcast.1
      · split
        · exact h
        · rename_i hinsert
          obtain ⟨-, i, rfl⟩ := focusIdInsert_some hinsert
          exact h.insert i hlevel
      · exact h

theorem Topped.abandonId (h : Topped F stack) (clientId : Nat) : Topped F (Media.abandonId F clientId stack).stack := by
  match stack with
  | [] => exact h
  | top :: rest =>
    rw [Media.abandonId]
    split_ifs with hid
    · rw [stackDelete, if_pos hid]
      exact h.pop.broadcast.1
    · dsimp only
      rw [stackDelete_ne hid]
      exact h.subset eraseP_subset

theorem focusNext_topped (h : Topped F stack) (e : Event) : Topped F (focusNext F stack e) := by
  rw [focusNext, focusStep]
  split
  · rename_i stream _
    split
    · exact h
    · rename_i level hlevel
      exact (h.cleared e).requestLevel ⟨stream, hlevel⟩
  · split_ifs
    · exact h
    · exact (h.cleared e).abandonId _

theorem Settled.requestLevel (hagrees : F.Agrees) (htop : Topped F stack) (h : Settled F stack)
    {a : List UInt8} (hlevel : F.level a = some level) : Settled F (Media.requestLevel F level stack).stack := by
  rw [Media.requestLevel]
  rcases freeClientId F stack with _ | validId
  · exact h
  · match stack with
    | [] => exact settled_cons nofun
    | top :: rest =>
      dsimp only
      split_ifs with hplay hbelow
      · exact (htop.push hplay ⟨a, hlevel⟩).broadcast.2
      · split
        · exact h
        · rename_i hinsert
          obtain ⟨hlt, i, rfl⟩ := focusIdInsert_some hinsert
          obtain ⟨b, hb⟩ := htop.level top mem_cons_self
          exact h.insert i (hagrees a b level top.focusLevel hlevel hb hlt hbelow).symm
      · exact h

theorem Settled.abandonId (htop : Topped F stack) (h : Settled F stack) (clientId : Nat) :
    Settled F (Media.abandonId F clientId stack).stack := by
  match stack with
  | [] => exact h
  | top :: rest =>
    rw [Media.abandonId]
    split_ifs with hid
    · rw [stackDelete, if_pos hid]
      exact htop.pop.broadcast.2
    · dsimp only
      rw [stackDelete_ne hid]
      exact settled_cons fun c hc => h top rfl c (mem_of_mem_eraseP hc)

theorem settled_request (htop : Topped F stack) {a : List UInt8} (hlevel : F.level a = some level)
    (hfree : (freeClientId F stack).isSome)
    (hplay : ∀ top ∈ stack.head?, (F.matrix level top.focusLevel).proInter = focusPlay) :
    Settled F (requestLevel F level stack).stack := by
  obtain ⟨validId, hid⟩ := isSome_iff_exists.mp hfree
  rw [requestLevel, hid]
  match stack with
  | [] => exact settled_cons nofun
  | top :: rest =>
    dsimp only
    rw [if_pos (hplay top rfl)]
    exact (htop.push (hplay top rfl) ⟨a, hlevel⟩).broadcast.2

theorem settled_abandon (htop : Topped F stack) {clientId : Nat} (hid : ∀ top ∈ stack.head?, top.clientId = clientId) :
    Settled F (abandonId F clientId stack).stack := by
  match stack with
  | [] => exact nofun
  | top :: rest =>
    rw [abandonId, if_pos (hid top rfl), stackDelete, if_pos (hid top rfl)]
    exact htop.pop.broadcast.2

theorem focusNext_settled (hagrees : F.Agrees) (htop : Topped F stack) (h : Settled F stack) {e : Event}
    (hlives : TopLives F stack e) : Settled F (focusNext F stack e) := by
  have hcleared := htop.cleared e
  obtain ⟨call, early, late, hearly⟩ := e
  rw [focusNext, focusStep]
  match call with
  | .request stream =>
    dsimp only
    split
    · exact h
    · rename_i level hlevel
      rcases hlives with halive | hrefreshes
      · exact (h.cleared htop _ halive).requestLevel hagrees hcleared hlevel
      · obtain ⟨hfree, hplay⟩ := hrefreshes level hlevel
        exact settled_request hcleared hlevel hfree hplay
  | .abandon handle =>
    dsimp only
    split_ifs with hhandle
    · exact h
    · rcases hlives with halive | hrefreshes
      · exact (h.cleared htop _ halive).abandonId hcleared _
      · exact settled_abandon hcleared (hrefreshes (Nat.le_of_not_lt hhandle))

theorem coherentBut_of_settled (htop : Topped F stack) (h : Settled F stack) (placed : Option Nat) :
    CoherentBut F placed stack := by
  match stack with
  | [] => trivial
  | top :: rest => exact ⟨(htop.head top rfl).2, fun c hc _ => h top rfl c hc⟩

def calm (call : Call) : Event := ⟨call, fun _ => true, fun _ => true, fun _ _ => rfl⟩

theorem cleared_calm (call : Call) (stack : List (Client n)) : (calm call).cleared F stack = stack := by
  show uselessClear F (fun _ => true) (fun _ => true) none stack = stack
  induction stack with
  | nil => rfl
  | cons c rest ih => rw [uselessClear, promoted, if_pos rfl, ih]

theorem topLives_calm (call : Call) (stack : List (Client n)) : TopLives F stack (calm call) := .inl fun _ _ => rfl

theorem freeClientId_of_lt {i : Nat} (hfull : stack.length < F.depth) (hi : i < F.depth)
    (hfree : i ∉ stack.map Client.clientId) (hused : ∀ j < i, j ∈ stack.map Client.clientId) :
    freeClientId F stack = some i := by
  rw [freeClientId, if_neg (Nat.ne_of_lt hfull), find?_range_eq_some]
  refine ⟨by simpa using hfree, mem_range.mpr hi, fun j hj => ?_⟩
  simpa using hused j hj

theorem exists_freeClientId (hfull : stack.length < F.depth) : ∃ i, freeClientId F stack = some i := by
  rw [freeClientId, if_neg (Nat.ne_of_lt hfull), ← isSome_iff_exists, find?_isSome]
  by_contra hnone
  have hsub : range F.depth ⊆ stack.map Client.clientId := by
    intro i hi
    by_contra hnot
    exact hnone ⟨i, hi, by simpa using hnot⟩
  have := (nodup_range.subperm hsub).length_le
  rw [length_range, length_map] at this
  omega

/-- A request which the matrix puts below the top is granted, in front of the higher levels, exactly if its level is
above that of the top. -/
theorem request_below_iff (hfull : (top :: rest).length < F.depth) {ret : Nat}
    (hret : (F.matrix level top.focusLevel).proInter = ret)
    (hbelow : ret = focusPlayButSilent ∨ ret = focusPlayWithDuck) :
    (∃ id i, (requestLevel F level (top :: rest)).ret = some (ret, id) ∧ (requestLevel F level (top :: rest)).stack =
        top :: (rest.take i ++ ⟨id, level, .under, ret⟩ :: rest.drop i) ∧
      ∀ c ∈ rest.take i, ¬ level < c.focusLevel) ↔ top.focusLevel < level := by
  obtain ⟨id, hid⟩ := exists_freeClientId hfull
  have hplay : ret ≠ focusPlay := by rcases hbelow with rfl | rfl <;> decide
  obtain ⟨i, hfront, hinsert⟩ := focusIdInsert_cons ⟨id, level, .quit, ret⟩ top rest
  rw [requestLevel, hid]
  dsimp only
  rw [hret, if_neg hplay, if_pos hbelow, hinsert]
  by_cases hlt : top.focusLevel < level
  · rw [if_pos hlt]
    exact iff_of_true ⟨id, i, rfl, rfl, fun c hc => Nat.lt_asymm (hfront c hc)⟩ hlt
  · rw [if_neg hlt]
    exact iff_of_false (by simp) hlt

/-- Streams `a` and `b` that play more quietly below each other. -/
def duckBelow : Focus 2 := ⟨#v[[97], [98]], fun _ _ => ⟨focusPlayWithDuck, focusPlayWithDuck⟩, 8⟩

theorem request_below_a : (requestLevel duckBelow 1 [⟨0, 0, .top, focusPlay⟩]).ret.isSome := by
  obtain ⟨id, i, hret, -⟩ := (request_below_iff (F := duckBelow)
    (show [(⟨0, 0, .top, focusPlay⟩ : Client 2)].length < 8 by decide) rfl (.inr rfl)).mpr
    (show (0 : Fin 2) < 1 by decide)
  rw [hret]
  rfl

/-- Behind `b`, a request for `a` gets no handle. -/
theorem request_lost :
    focusNext duckBelow [] (calm (.request [98])) = [⟨0, 1, .top, focusPlay⟩] ∧
      duckBelow.level [97] = some 0 ∧ (requestLevel duckBelow 0 [⟨0, 1, .top, focusPlay⟩]).ret = none := by
  decide

theorem focusStep_request {a : List UInt8} (ha : F.level a = some level) (stack : List (Client n)) :
    focusStep F stack (calm (.request a)) =
      ((requestLevel F level stack).stack, (requestLevel F level stack).placed) := by
  rw [focusStep, cleared_calm]
  dsimp only [calm]
  rw [ha]

theorem focusStep_abandon {handle : Nat} (hhandle : 16 - 1 ≤ handle) (stack : List (Client n)) :
    focusStep F stack (calm (.abandon handle)) =
      ((abandonId F (handle >>> 16) stack).stack, (abandonId F (handle >>> 16) stack).placed) := by
  rw [focusStep, cleared_calm]
  dsimp only [calm]
  rw [if_neg (Nat.not_lt.mpr hhandle)]

theorem focusNext_below (hdepth : 2 ≤ F.depth) {a b : List UInt8} {new top : Fin n} (ha : F.level a = some new)
    (hb : F.level b = some top) (hlt : top < new)
    (hbelow : (F.matrix new top).proInter = focusPlayButSilent ∨ (F.matrix new top).proInter = focusPlayWithDuck) :
    focusNext F [] (calm (.request b)) = [⟨0, top, .top, focusPlay⟩] ∧
      focusNext F [⟨0, top, .top, focusPlay⟩] (calm (.request a)) =
        [⟨0, top, .top, focusPlay⟩, ⟨1, new, .under, (F.matrix new top).proInter⟩] := by
  constructor
  · have hfree : freeClientId F [] = some 0 :=
      freeClientId_of_lt (show 0 < F.depth by omega) (by omega) not_mem_nil nofun
    rw [focusNext, focusStep_request hb, requestLevel, hfree]
    rfl
  · have hplay : (F.matrix new top).proInter ≠ focusPlay := by
      rcases hbelow with h | h <;> rw [h] <;> decide
    have hinsert : focusIdInsert ⟨1, new, .quit, (F.matrix new top).proInter⟩ [⟨0, top, .top, focusPlay⟩] =
        some [⟨0, top, .top, focusPlay⟩, ⟨1, new, .under, (F.matrix new top).proInter⟩] := by
      rw [focusIdInsert, findIdx_singleton]
      rw [decide_eq_false (Fin.not_le.mpr hlt)]
      rfl
    have hfree : freeClientId F [⟨0, top, .top, focusPlay⟩] = some 1 :=
      freeClientId_of_lt (show 1 < F.depth by omega) (by omega) (by simp) (by simp)
    rw [focusNext, focusStep_request ha, requestLevel, hfree]
    dsimp only
    rw [if_neg hplay, if_pos hbelow, hinsert]

theorem coherent_iff (hdepth : 2 ≤ F.depth) :
    (∀ events, Guarded (focusNext F) (TopLives F) [] events → Guarded (focusNext F) (Coherent F) [] events) ↔
      F.Agrees := by
  constructor
  · intro h a b new top ha hb hlt hbelow
    obtain ⟨hfirst, hsecond⟩ := focusNext_below hdepth ha hb hlt hbelow
    -- a third call that finds nothing to do leaves the client with what its request returned
    have hcoherent := (h [calm (.request b), calm (.request a), calm (.abandon (2 ^ 16 * F.depth + 15))]
      ⟨topLives_calm .., topLives_calm .., topLives_calm .., trivial⟩).2.2.1
    have hid : (2 ^ 16 * F.depth + 15) >>> 16 = F.depth := by
      omega
    have hkept : [(⟨1, new, .under, (F.matrix new top).proInter⟩ : Client n)].eraseP
        (fun c => c.clientId = F.depth) = [⟨1, new, .under, (F.matrix new top).proInter⟩] := by
      refine List.eraseP_of_forall_not fun c hc => ?_
      obtain rfl := List.mem_singleton.mp hc
      simpa using show 1 ≠ F.depth by omega
    rw [hfirst, hsecond, Coherent, focusStep_abandon (by omega), hid, abandonId, if_neg (by dsimp only; omega),
      stackDelete_ne (by dsimp only; omega), hkept] at hcoherent
    exact (hcoherent.2 _ List.mem_cons_self nofun).symm
  · intro hagrees events hlives
    refine guarded_of_inv (I := fun stack => Topped F stack ∧ Settled F stack)
      (fun stack e hs hl => ⟨focusNext_topped hs.1 e, focusNext_settled hagrees hs.1 hs.2 hl⟩)
      (fun stack e hs hl => ?_) ⟨topped_nil, nofun⟩ hlives
    exact coherentBut_of_settled (focusNext_topped hs.1 e) (focusNext_settled hagrees hs.1 hs.2 hl) _

/-- Streams `a` and `b`: a new client always becomes the top; the others pause below `a` and play more quietly below
`b`. -/
def twoStreams : Focus 2 where
  streams := #v[[97], [98]]
  matrix := fun row _ => ⟨focusPlay, if row = 0 then 2 else focusPlayWithDuck⟩
  depth := 8

theorem twoStreams_agrees : twoStreams.Agrees := by
  intro a b new top _ _ _ h
  rcases h with h | h
  · exact absurd h (show focusPlay ≠ focusPlayButSilent by decide)
  · exact absurd h (show focusPlay ≠ focusPlayWithDuck by decide)

theorem coherent_twoStreams :
    2 ≤ twoStreams.depth ∧ ∀ events, Guarded (focusNext twoStreams) (TopLives twoStreams) [] events →
      Guarded (focusNext twoStreams) (Coherent twoStreams) [] events :=
  ⟨by decide, (coherent_iff (by decide)).mpr twoStreams_agrees⟩

def thirdDead (call : Call) : Event := ⟨call, (· ≠ 2), (· ≠ 2), fun _ h => h⟩

/-- The third client dies as the top. The second becomes the top, and the first, below `a` now, was not told to
pause. -/
theorem told_by_dead_top :
    focusNext twoStreams (replay (focusNext twoStreams) []
        [calm (.request [97]), calm (.request [98]), calm (.request [97])]) (thirdDead (.abandon (2 ^ 16 * 7 + 15))) =
        [⟨1, 1, .top, focusPlay⟩, ⟨0, 0, .under, 2⟩] ∧
      ¬ Guarded (focusNext twoStreams) (Coherent twoStreams) []
        [calm (.request [97]), calm (.request [98]), calm (.request [97]),
          thirdDead (.abandon (2 ^ 16 * 7 + 15))] := by
  decide +kernel

end NuttxApps.Media
