import NuttxApps.Nsh.Keywords

/-!
# Where a command stands

`pathAt prog n` are the constructs that are open in front of the `n`th command of a script, the innermost first, read
off the keywords alone. In a well-formed script each command fits its place (`Lead`, `Main`), and everything that is
opened is closed (`pathAt_end`).
-/

namespace NuttxApps.Nsh

open List

/-- An open construct: what is being read of it, and the position of its first
command. -/
inductive Frame
  | loopCond (pos : Nat)
  | loopBody (pos : Nat)
  | ifCond (pos : Nat)
  | thenBranch (pos : Nat)
  | elseBranch (pos : Nat)
deriving DecidableEq

def Frame.pos : Frame → Nat
  | .loopCond i => i
  | .loopBody i => i
  | .ifCond i => i
  | .thenBranch i => i
  | .elseBranch i => i

def Frame.isLoop : Frame → Bool
  | .loopCond _ => true
  | .loopBody _ => true
  | .ifCond _ => false
  | .thenBranch _ => false
  | .elseBranch _ => false

def Frame.isCond : Frame → Bool
  | .loopCond _ => true
  | .loopBody _ => false
  | .ifCond _ => true
  | .thenBranch _ => false
  | .elseBranch _ => false

def Frame.isBranch : Frame → Bool
  | .loopCond _ => false
  | .loopBody _ => false
  | .ifCond _ => false
  | .thenBranch _ => true
  | .elseBranch _ => true

abbrev Path := List Frame

variable (words : List String) (f : Frame) (π : Path)

def loops : Nat := π.countP Frame.isLoop

def ifs : Nat := π.countP (!Frame.isLoop ·)

@[simp] theorem loops_nil : loops [] = 0 := rfl

@[simp] theorem ifs_nil : ifs [] = 0 := rfl

@[simp] theorem loops_cons : loops (f :: π) = loops π + if f.isLoop then 1 else 0 :=
  countP_cons

@[simp] theorem ifs_cons : ifs (f :: π) = ifs π + if f.isLoop then 0 else 1 := by
  rw [ifs, countP_cons]
  cases f.isLoop <;> rfl

def enter : Path → Path
  | .loopCond i :: π => if words.head? = some "do" then .loopBody i :: π else .loopCond i :: π
  | .ifCond i :: π => if words.head? = some "then" then .thenBranch i :: π else .ifCond i :: π
  | .thenBranch i :: π => if words.head? = some "else" then .elseBranch i :: π else .thenBranch i :: π
  | π => π

def behind : List String :=
  if words.head? = some "do" ∨ words.head? = some "then" ∨ words.head? = some "else" then words.tail else words

def scan (pos : Nat) (words : List String) (π : Path) : Path :=
  let w := (behind words).head?
  let π := enter words π
  if w = some "while" ∨ w = some "until" then .loopCond pos :: π
  else if w = some "if" then .ifCond pos :: π
  else if w = some "done" ∨ w = some "fi" then π.tail
  else π

def pathAt (prog : List (List String)) : Nat → Path
  | 0 => []
  | n + 1 =>
    match prog[n]? with
    | none => pathAt prog n
    | some words => scan n words (pathAt prog n)

def Settled : Prop := ∀ f ∈ π, f.isCond = false

/-- A leading keyword that fits, the command behind it and the path in front of that. -/
inductive Lead : List String → Path → List String → Path → Prop
  | none (words : List String) (π : Path) : Lead words π words π
  | body {words : List String} {i : Nat} {π : Path} (hl : Free loopKeywords words) :
      Lead ("do" :: words) (.loopCond i :: π) words (.loopBody i :: π)
  | thn {words : List String} {i : Nat} {π : Path} (hl : Free loopKeywords words) (hi : Free itefKeywords words) :
      Lead ("then" :: words) (.ifCond i :: π) words (.thenBranch i :: π)
  | els {words : List String} {i : Nat} {π : Path} (hl : Free loopKeywords words) (hi : Free itefKeywords words) :
      Lead ("else" :: words) (.thenBranch i :: π) words (.elseBranch i :: π)

/-- A command that fits, with the paths in front of it and behind it. -/
inductive Main (nestdepth pos : Nat) : List String → Path → Path → Prop
  | nil (π : Path) : Main nestdepth pos [] π π
  | cmd {argv : List String} {π : Path} (h : Plain argv) (hs : Settled π) : Main nestdepth pos argv π π
  | brk {π : Path} (hs : Settled π) : Main nestdepth pos ["break"] π π
  | loop (isUntil : Bool) {cond : List String} {π : Path} (h : Plain cond) (hs : Settled π)
      (hd : loops π < nestdepth - 1) : Main nestdepth pos (loopWords isUntil cond) π (.loopCond pos :: π)
  | done {i : Nat} {π : Path} (hs : Settled π) : Main nestdepth pos ["done"] (.loopBody i :: π) π
  | ite (inverted : Bool) {cond : List String} {π : Path} (h : Plain cond) (hs : Settled π)
      (hd : ifs π < nestdepth - 1) : Main nestdepth pos (ifWords inverted cond) π (.ifCond pos :: π)
  | fi {f : Frame} {π : Path} (hf : f.isBranch = true) (hs : Settled π) : Main nestdepth pos ["fi"] (f :: π) π

/-- Commands that fit one behind the other, from position `pos` on. -/
inductive Threads (nestdepth : Nat) : Nat → Path → List (List String) → Path → Prop
  | nil (pos : Nat) (π : Path) : Threads nestdepth pos π [] π
  | cons {pos : Nat} {π mid π' π'' : Path} {words w : List String} {cmds : List (List String)}
      (hl : Lead words π w mid) (hm : Main nestdepth pos w mid π') (h : Threads nestdepth (pos + 1) π' cmds π'') :
      Threads nestdepth pos π (words :: cmds) π''

variable {nestdepth pos : Nat} {π mid π' π'' : Path} {words w : List String} {cmds cmds' : List (List String)}

theorem Threads.append (h : Threads nestdepth pos π cmds π')
    (h' : Threads nestdepth (pos + cmds.length) π' cmds' π'') : Threads nestdepth pos π (cmds ++ cmds') π'' := by
  induction h with
  | nil pos π => exact h'
  | @cons pos π mid π₁ π₂ words w cmds hl hm _ ih =>
    refine .cons hl hm (ih ?_)
    rwa [length_cons, ← Nat.add_assoc, Nat.add_right_comm] at h'

theorem settled_nil : Settled [] := fun _ h => absurd h not_mem_nil

variable {prog : List (List String)} {n : Nat} {f : Frame}

theorem settled_cons (hf : f.isCond = false) (h : Settled π) : Settled (f :: π) := by
  intro g hg
  rcases mem_cons.1 hg with rfl | hg
  · exact hf
  · exact h g hg

theorem threads_lead {kw : String} {inline : Bool} {P : List String → Prop} (hnil : P [])
    (hkw : ∀ words, P words → Lead (kw :: words) π words mid)
    (hfirst : ∀ words w mid', Lead words mid w mid' → P words → w = words ∧ mid' = mid)
    (hf : inline = true → ∀ c ∈ cmds.head?, P c) (h : ∀ pos, Threads nestdepth pos mid cmds π') :
    Threads nestdepth pos π (lead inline kw cmds) π' := by
  have halone : ∀ cs, Threads nestdepth (pos + 1) mid cs π' → Threads nestdepth pos π ([kw] :: cs) π' :=
    fun cs h => .cons (hkw [] hnil) (.nil mid) h
  cases cmds with
  | nil => exact halone [] (h _)
  | cons c cs =>
    cases inline with
    | false => exact halone (c :: cs) (h _)
    | true =>
      cases h pos with
      | cons hl hm hcs =>
        have hc := hf rfl c rfl
        obtain ⟨rfl, rfl⟩ := hfirst _ _ _ hl hc
        exact .cons (hkw _ hc) hm hcs

section

variable {i : Nat} {inline : Bool} (hf : inline = true → ∀ c ∈ cmds.head?, Free loopKeywords c ∧ Free itefKeywords c)

include hf

theorem threads_then (h : ∀ pos, Threads nestdepth pos (.thenBranch i :: π) cmds π') :
    Threads nestdepth pos (.ifCond i :: π) (lead inline "then" cmds) π' := by
  refine threads_lead ⟨free_nil _, free_nil _⟩ (fun words h => .thn h.1 h.2) ?_ hf h
  rintro words w mid' hl ⟨-, hi⟩
  cases hl with
  | none => exact ⟨rfl, rfl⟩
  | els => exact absurd (hi _ rfl) (by decide)

theorem threads_else (h : ∀ pos, Threads nestdepth pos (.elseBranch i :: π) cmds π') :
    Threads nestdepth pos (.thenBranch i :: π) (lead inline "else" cmds) π' := by
  refine threads_lead ⟨free_nil _, free_nil _⟩ (fun words h => .els h.1 h.2) ?_ hf h
  rintro words w mid' hl -
  cases hl
  exact ⟨rfl, rfl⟩

end

theorem threads_do {i : Nat} {inline : Bool} (hf : inline = true → ∀ c ∈ cmds.head?, Free loopKeywords c)
    (h : ∀ pos, Threads nestdepth pos (.loopBody i :: π) cmds π') :
    Threads nestdepth pos (.loopCond i :: π) (lead inline "do" cmds) π' := by
  refine threads_lead (free_nil _) (fun words h => .body h) ?_ hf h
  rintro words w mid' hl -
  cases hl
  exact ⟨rfl, rfl⟩

theorem threads_commands {s : Script} (hp : s.Plain) (hi : s.InlineOk) (hs : Settled π)
    (hl : loops π + s.loopDepth ≤ nestdepth - 1) (hd : ifs π + s.ifDepth ≤ nestdepth - 1) (pos : Nat) :
    Threads nestdepth pos π s.commands π := by
  induction s generalizing π pos with
  | nil => exact .nil pos π
  | cmd argv rest ih => exact .cons (.none _ _) (.cmd hp.1 hs) (ih hp.2 hi hs hl hd _)
  | brk rest ih => exact .cons (.none _ _) (.brk hs) (ih hp hi hs hl hd _)
  | loop isUntil cond inline body rest ihb ihr =>
    simp only [Script.loopDepth, Script.ifDepth] at hl hd
    have hbody : ∀ n, Threads nestdepth n (.loopBody pos :: π) body.commands (.loopBody pos :: π) :=
      ihb hp.2.1 hi.2.1 (settled_cons rfl hs) (by simp [Frame.isLoop]; omega) (by simp [Frame.isLoop]; omega)
    refine .cons (.none _ _) (.loop isUntil hp.1 hs (by omega)) ?_
    refine (threads_do (fun h => head_free_loop hp.2.1 (hi.1 h)) hbody).append ?_
    exact .cons (.none _ _) (.done hs) (ihr hp.2.2 hi.2.2 hs (by omega) (by omega) _)
  | ifThen inverted cond inline thn rest iht ihr =>
    simp only [Script.loopDepth, Script.ifDepth] at hl hd
    have hthn : ∀ n, Threads nestdepth n (.thenBranch pos :: π) thn.commands (.thenBranch pos :: π) :=
      iht hp.2.1 hi.2.1 (settled_cons rfl hs) (by simp [Frame.isLoop]; omega) (by simp [Frame.isLoop]; omega)
    refine .cons (.none _ _) (.ite inverted hp.1 hs (by omega)) ?_
    refine (threads_then (fun h => head_free hp.2.1 (hi.1 h).1 (hi.1 h).2) hthn).append ?_
    exact .cons (.none _ _) (.fi rfl hs) (ihr hp.2.2 hi.2.2 hs (by omega) (by omega) _)
  | ifElse inverted cond inline thn inline' els rest iht ihe ihr =>
    simp only [Script.loopDepth, Script.ifDepth] at hl hd
    obtain ⟨hft, hfe, hit, hie, hir⟩ := hi
    have hthn : ∀ n, Threads nestdepth n (.thenBranch pos :: π) thn.commands (.thenBranch pos :: π) :=
      iht hp.2.1 hit (settled_cons rfl hs) (by simp [Frame.isLoop]; omega) (by simp [Frame.isLoop]; omega)
    have hels : ∀ n, Threads nestdepth n (.elseBranch pos :: π) els.commands (.elseBranch pos :: π) :=
      ihe hp.2.2.1 hie (settled_cons rfl hs) (by simp [Frame.isLoop]; omega) (by simp [Frame.isLoop]; omega)
    refine .cons (.none _ _) (.ite inverted hp.1 hs (by omega)) ?_
    refine (threads_then (fun h => head_free hp.2.1 (hft h).1 (hft h).2) hthn).append ?_
    refine (threads_else (fun h => head_free hp.2.2.1 (hfe h).1 (hfe h).2) hels).append ?_
    exact .cons (.none _ _) (.fi rfl hs) (ihr hp.2.2.2 hir hs (by omega) (by omega) _)

/-! ## Reading the path off the keywords -/

theorem Main.notLead (h : Main nestdepth pos w π π') (kw : String) (hk : kw ∈ ["do", "then", "else"]) :
    w.head? ≠ some kw := by
  have hr : ["do", "then", "else"] ⊆ reserved := by decide
  cases h with
  | nil => simp
  | cmd h => exact h.head_ne (hr hk)
  | loop isUntil => cases isUntil <;> rintro ⟨⟩ <;> exact absurd hk (by decide)
  | _ => rintro ⟨⟩; exact absurd hk (by decide)

theorem Lead.enter_eq (hl : Lead words π w mid) (hm : Main nestdepth pos w mid π') :
    enter words π = mid ∧ behind words = w := by
  have hd := hm.notLead "do" (by decide)
  have ht := hm.notLead "then" (by decide)
  have he := hm.notLead "else" (by decide)
  cases hl with
  | none =>
    refine ⟨?_, by simp [behind, hd, ht, he]⟩
    unfold enter
    split <;> simp [hd, ht, he]
  | body => exact ⟨by simp [enter], by simp [behind]⟩
  | thn => exact ⟨by simp [enter], by simp [behind]⟩
  | els => exact ⟨by simp [enter], by simp [behind]⟩

theorem scan_eq (hl : Lead words π w mid) (hm : Main nestdepth pos w mid π') : scan pos words π = π' := by
  obtain ⟨h₁, h₂⟩ := hl.enter_eq hm
  simp only [scan, h₁, h₂]
  cases hm with
  | nil => simp
  | cmd h => simp [h.head_ne (w := "while") (by decide), h.head_ne (w := "until") (by decide),
      h.head_ne (w := "if") (by decide), h.head_ne (w := "done") (by decide), h.head_ne (w := "fi") (by decide)]
  | brk => simp
  | loop isUntil => cases isUntil <;> simp [loopWords]
  | ite => simp [ifWords]
  | done => simp
  | fi => simp

theorem pathAt_succ (h : prog[n]? = some words) : pathAt prog (n + 1) = scan n words (pathAt prog n) := by
  rw [pathAt, h]

section

variable {prog : List (List String)} (h : Threads nestdepth 0 [] prog []) {n : Nat}

include h

theorem threads_drop (hn : n ≤ prog.length) : Threads nestdepth n (pathAt prog n) (prog.drop n) [] := by
  induction n with
  | zero => exact h
  | succ n ih =>
    have hn' : n < prog.length := hn
    have ih := ih (Nat.le_of_lt hn')
    rw [drop_eq_getElem_cons hn'] at ih
    cases ih with
    | cons hl hm hcs => rwa [pathAt_succ (getElem?_eq_getElem hn'), scan_eq hl hm]

theorem fits (hw : prog[n]? = some words) :
    ∃ w mid π', Lead words (pathAt prog n) w mid ∧ Main nestdepth n w mid π' ∧ pathAt prog (n + 1) = π' := by
  obtain ⟨hn, rfl⟩ := List.getElem?_eq_some_iff.1 hw
  have ht := threads_drop h (Nat.le_of_lt hn)
  rw [drop_eq_getElem_cons hn] at ht
  cases ht with
  | cons hl hm hcs => exact ⟨_, _, _, hl, hm, by rw [pathAt_succ hw, scan_eq hl hm]⟩

theorem pathAt_end (hn : prog.length ≤ n) : pathAt prog n = [] := by
  induction hn with
  | refl =>
    have ht := threads_drop h .refl
    rw [drop_length] at ht
    generalize pathAt prog prog.length = π at ht
    cases ht
    rfl
  | step hn ih => rw [pathAt, getElem?_eq_none hn]; exact ih

end

theorem Lead.tail_eq (h : Lead words π w mid) : mid.tail = π.tail := by
  cases h <;> rfl

theorem Settled.tail (h : Settled π) : Settled π.tail := fun f hf => h f (mem_of_mem_tail hf)

theorem settled_tail (h : Threads nestdepth 0 [] prog []) (n : Nat) : Settled (pathAt prog n).tail := by
  induction n with
  | zero => exact settled_nil
  | succ n ih =>
    cases hw : prog[n]? with
    | none => rw [pathAt, hw]; exact ih
    | some words =>
      obtain ⟨w, mid, π', hl, hm, hp⟩ := fits h hw
      rw [hp]
      cases hm with
      | nil => rw [hl.tail_eq]; exact ih
      | cmd _ hs => exact hs.tail
      | brk hs => exact hs.tail
      | loop _ _ hs => exact hs
      | ite _ _ hs => exact hs
      | done hs => exact hs.tail
      | fi _ hs => exact hs.tail

/-- The constructs of a path were opened in front of position `n`, one inside the other. -/
def Opened (prog : List (List String)) : Path → Nat → Prop
  | [], _ => True
  | f :: π, n => f.pos < n ∧ (f.isLoop = true → pathAt prog f.pos = π) ∧ Opened prog π f.pos

theorem Opened.mono {n m : Nat} (h : Opened prog π n) (hnm : n ≤ m) : Opened prog π m := by
  cases π with
  | nil => trivial
  | cons f π => exact ⟨Nat.lt_of_lt_of_le h.1 hnm, h.2⟩

theorem Opened.tail (h : Opened prog (f :: π) n) : Opened prog π n :=
  h.2.2.mono (Nat.le_of_lt h.1)

theorem Opened.lead (h : Opened prog π n) (hl : Lead words π w mid) : Opened prog mid n := by
  cases hl with
  | none => exact h
  | body => exact h
  | thn => exact ⟨h.1, nofun, h.2.2⟩
  | els => exact ⟨h.1, nofun, h.2.2⟩

theorem Lead.eq_of_loop (hl : Lead words π w mid) {isUntil : Bool} {cond : List String}
    (hw : w = loopWords isUntil cond) : mid = π := by
  have hk : ¬ Free loopKeywords w := by
    subst hw
    cases isUntil <;> simp [Free, loopWords, loopKeywords]
  cases hl with
  | none => rfl
  | body h => exact absurd h hk
  | thn h => exact absurd h hk
  | els h => exact absurd h hk

theorem opened_pathAt (h : Threads nestdepth 0 [] prog []) (n : Nat) : Opened prog (pathAt prog n) n := by
  induction n with
  | zero => trivial
  | succ n ih =>
    cases hw : prog[n]? with
    | none => rw [pathAt, hw]; exact ih.mono n.le_succ
    | some words =>
      obtain ⟨w, mid, π', hl, hm, hp⟩ := fits h hw
      have hmid : Opened prog mid n := ih.lead hl
      rw [hp]
      cases hm with
      | nil => exact hmid.mono n.le_succ
      | cmd => exact hmid.mono n.le_succ
      | brk => exact hmid.mono n.le_succ
      | loop isUntil => exact ⟨n.lt_succ_self, fun _ => (hl.eq_of_loop rfl).symm, hmid⟩
      | ite => exact ⟨n.lt_succ_self, nofun, hmid⟩
      | done => exact hmid.tail.mono n.le_succ
      | fi => exact hmid.tail.mono n.le_succ

end NuttxApps.Nsh
