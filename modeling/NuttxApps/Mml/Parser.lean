import NuttxApps.Mml.Length

/-!
# Tuplets of the music macro language

`parse_mml` takes one command of a score at each call. At a `{` it counts the notes of the tuplet and takes its length
from behind the `}`; each of the notes then gets its share, and the last one what is left over (`tuplet_keeps_time`).
Counters of characters are taken not to overflow.
-/

namespace NuttxApps.Mml

open Libc CString Option

inductive MmlType
  | eof
  | note
  | rest
  | tempo
  | length
  | octave
  | tupletStart
  | tupletDone
  | volume
  | tone
  | chord
  | noteError
  | restError
  | tempoError
  | lengthError
  | octaveError
  | volumeError
  | tupletError
  | toneError
  | chordError
  | illigalComposition
  | illigalToomanyNotes
  | illigalToofewNotes
  | illigalDoubleTuplet
deriving DecidableEq, Repr

structure MmlResult where
  noteIdx : Vector Int 5
  length : Int
  chordNotes : Nat
deriving DecidableEq, Repr

open List

structure Parse where
  mml : MusicMacroLang
  score : Score
  result : MmlResult
deriving DecidableEq, Repr

/-- `skip_space` and `next_code`; `none` for the terminator. -/
def nextCode (score : Score) : Option UInt8 × Score :=
  ((score.dropWhile isspace).head?, (score.dropWhile isspace).tail)

def codeTypes : List UInt8 := chars ['C', '+', 'D', '+', 'E', 'F', '+', 'G', '+', 'A', '+', 'B']

def noteIndex (code : UInt8) : Int := ((codeTypes.idxOf? code).map Int.ofNat).getD (-1)

def halfscale : Score → Int × Score
  | [] => (0, [])
  | c :: s =>
    if c = 43 ∨ c = 35 then ((halfscale s).1 + 1, (halfscale s).2)
    else if c = 45 then ((halfscale s).1 - 1, (halfscale s).2)
    else (0, c :: s)

def tupletLength (mml : MusicMacroLang) : Option (Int × MusicMacroLang) :=
  if mml.tupletNotes = 0 then none
  else
    let ret := mml.tupletLength.tdiv mml.tupletNotes
    let mml := { mml with curTuplet := mml.curTuplet + 1 }
    -- the surplus goes to the last note
    some (if mml.curTuplet = mml.tupletNotes then mml.tupletLength - ret * (mml.tupletNotes - 1) else ret, mml)

variable (τ : Target) (p : Parse)

def withLength (type error : MmlType) (len : Int) (score : Score) : MmlType × Parse :=
  (if len < 0 then error else type, { p with score, result := { p.result with length := len } })

def setNote (code : UInt8) : Parse :=
  let (half, score) := halfscale p.score
  { p with score, result := { p.result with
      noteIdx := p.result.noteIdx.set 0 (wrap (noteIndex code + half + p.mml.curOctave * 12)) } }

def handleNote (code : UInt8) : Option (MmlType × Parse) :=
  let p := setNote p code
  (sampleLength τ p.mml p.score).map fun (len, score) => withLength p .note .noteError len score

def handleTupletnote (code : UInt8) : Option (MmlType × Parse) :=
  if p.mml.curTuplet < p.mml.tupletNotes then
    let p := setNote p code
    (tupletLength p.mml).map fun (len, mml) =>
      (.note, { p with mml, result := { p.result with length := len } })
  else some (.illigalToomanyNotes, p)

def handleNotes (code : UInt8) : Option (MmlType × Parse) :=
  let p := { p with result := { p.result with chordNotes := 1 } }
  if p.mml.state = .tuplet then handleTupletnote p code else handleNote τ p code

def handleRest : Option (MmlType × Parse) :=
  if p.mml.state = .tuplet then
    (tupletLength p.mml).map fun (len, mml) => (.rest, { p with mml, result := { p.result with length := len } })
  else (sampleLength τ p.mml p.score).map fun (len, score) => withLength p .rest .restError len score

def takeNumber (type error : MmlType) (set : Int → Parse) : MmlType × Parse :=
  if p.score.head?.any isdigit then
    (type, { set (atoi τ p.score).toInt with score := p.score.dropWhile isdigit })
  else (error, p)

def handleTempo : MmlType × Parse :=
  takeNumber τ p .tempo .tempoError fun n =>
    { p with mml := { p.mml with curTempo := n }, result := { p.result with length := n } }

def handleLength : MmlType × Parse :=
  takeNumber τ p .length .lengthError fun n =>
    { p with mml := { p.mml with defLength := n }, result := { p.result with length := n } }

def handleTone : MmlType × Parse :=
  takeNumber τ p .tone .toneError fun n => { p with result := { p.result with noteIdx := p.result.noteIdx.set 0 n } }

def setOctave (n : Int) : Parse :=
  { p with mml := { p.mml with curOctave := n }, result := { p.result with length := n } }

def handleOctave (code : UInt8) : MmlType × Parse :=
  if code = 62 then (.octave, setOctave p (wrap (p.mml.curOctave + 1)))
  else if code = 60 then (.octave, setOctave p (wrap (p.mml.curOctave - 1)))
  else takeNumber τ p .octave .octaveError (setOctave p)

def handleVolume : MmlType × Parse :=
  let n := (atoi τ p.score).toInt
  (if n < 0 ∨ 100 < n then .volumeError else .volume,
    { p with score := p.score.dropWhile isdigit, result := { p.result with length := n } })

def tupletNotes : List UInt8 := chars ['C', 'D', 'E', 'F', 'G', 'A', 'B', 'R']

/-- The loop of `count_tupletnotes`, with `skip_until` inside a chord; `none` where the score ends before. -/
def countNotes : (inChord : Bool) → Int → Score → Int × Option Score
  | _, notes, [] => (notes + 1, none)
  | true, notes, c :: s => if c = 93 then countNotes false (notes + 1) s else countNotes true notes s
  | false, notes, c :: s =>
    if isspace c then countNotes false notes s
    else if c = 125 then (notes, some s)
    else if c ∈ tupletNotes then countNotes false (notes + 1) s
    else if c = 91 then countNotes true notes s
    else countNotes false notes s

def countTupletnotes (mml : MusicMacroLang) (score : Score) : Option (Bool × MusicMacroLang) :=
  match countNotes false mml.tupletNotes score with
  | (notes, none) => some (false, { mml with tupletNotes := notes })
  | (notes, some s) =>
    (sampleLength τ { mml with tupletNotes := notes } s).map fun (len, _) =>
      (notes ≠ 0, { mml with tupletNotes := notes, tupletLength := len })

def handleStarttuplet : Option (MmlType × Parse) :=
  if p.mml.state ≠ .normal then some (.illigalDoubleTuplet, p)
  else (countTupletnotes τ { p.mml with tupletNotes := 0 } p.score).map fun (ok, mml) =>
    if ok = false ∨ mml.tupletNotes = 0 then (.tupletError, { p with mml })
    else (.tupletStart, { p with
      mml := { mml with state := .tuplet, curTuplet := 0 }
      result := { p.result with length := mml.tupletLength } })

def handleStoptuplet : Option (MmlType × Parse) :=
  let mml := { p.mml with state := .normal }
  (sampleLength τ mml p.score).map fun (_, score) =>
    (if mml.curTuplet ≠ mml.tupletNotes then .illigalToofewNotes else .tupletDone, { p with mml, score })

/-- The loop of `handle_startchord`, with fuel for its rounds: whether it came to the `]`. -/
def chordLoop : Nat → Parse → Bool × Parse
  | 0, p => (false, p)
  | fuel + 1, p =>
    match nextCode p.score with
    | (none, score) => (false, { p with score })
    | (some code, score) =>
      let p := { p with score }
      if code = 93 then (true, p)
      else if 0 ≤ noteIndex code then
        let (half, score) := halfscale p.score
        let note := wrap (noteIndex code + half + p.mml.curOctave * 12)
        let p := { p with score }
        chordLoop fuel (if h : p.result.chordNotes < 5 then
          { p with result := { p.result with
              noteIdx := p.result.noteIdx.set p.result.chordNotes note, chordNotes := p.result.chordNotes + 1 } }
        else p)
      else if code = 79 ∨ code = 62 ∨ code = 60 then
        match handleOctave τ p code with
        | (.octave, p) => chordLoop fuel p
        | (_, p) => (false, p)
      else (false, p)

def handleStartchord : Option (MmlType × Parse) :=
  match chordLoop τ (p.score.length + 1) p with
  | (false, p) => some (.chordError, p)
  | (true, p) =>
    if p.mml.state = .tuplet then
      (tupletLength p.mml).map fun (len, mml) => withLength { p with mml } .chord .chordError len p.score
    else (sampleLength τ p.mml p.score).map fun (len, score) => withLength p .chord .chordError len score

inductive Command
  | notes
  | rest
  | tempo
  | length
  | octave
  | volume
  | chordStart
  | tupletStart
  | tupletEnd
  | tone
  | illigal
deriving DecidableEq, Repr

def command (code : UInt8) : Command :=
  if code ∈ chars ['A', 'B', 'C', 'D', 'E', 'F', 'G'] then .notes
  else if code ∈ chars ['R'] then .rest
  else if code ∈ chars ['T'] then .tempo
  else if code ∈ chars ['L'] then .length
  else if code ∈ chars ['O', '>', '<'] then .octave
  else if code ∈ chars ['V'] then .volume
  else if code ∈ chars ['['] then .chordStart
  else if code ∈ chars ['\x7b'] then .tupletStart
  else if code ∈ chars ['\x7d'] then .tupletEnd
  else if code ∈ chars ['@'] then .tone
  else .illigal

def handle (code : UInt8) : Option (MmlType × Parse) :=
  match command code with
  | .notes => handleNotes τ p code
  | .rest => handleRest τ p
  | .tempo => some (handleTempo τ p)
  | .length => some (handleLength τ p)
  | .octave => some (handleOctave τ p code)
  | .volume => some (handleVolume τ p)
  | .chordStart => handleStartchord τ p
  | .tupletStart => handleStarttuplet τ p
  | .tupletEnd => handleStoptuplet τ p
  | .tone => some (handleTone τ p)
  | .illigal => some (.illigalComposition, p)

def parseMml : Option (MmlType × Parse) :=
  match nextCode p.score with
  | (none, score) => some (.eof, ⟨p.mml, score, { p.result with chordNotes := 0 }⟩)
  | (some code, score) => handle τ ⟨p.mml, score, { p.result with chordNotes := 0 }⟩ code

def parseCalls : Nat → Parse → Option (List (MmlType × MmlResult) × Parse)
  | 0, p => some ([], p)
  | n + 1, p => (parseMml τ p).bind fun (type, p) => (parseCalls n p).map fun (rs, q) => ((type, p.result) :: rs, q)

inductive Letter
  | a
  | b
  | c
  | d
  | e
  | f
  | g

def Letter.code : Letter → UInt8
  | .a => 65
  | .b => 66
  | .c => 67
  | .d => 68
  | .e => 69
  | .f => 70
  | .g => 71

inductive Accidental
  | plus
  | sharp
  | minus

def Accidental.code : Accidental → UInt8
  | .plus => 43
  | .sharp => 35
  | .minus => 45

structure Blanks where
  val : Score
  isspace_of_mem : ∀ c ∈ val, isspace c = true

inductive ChordItem
  | note (letter : Letter) (accidentals : List Accidental)
  | octave (n : Number)
  | up
  | down

def ChordItem.text : ChordItem → Score
  | .note l as => l.code :: as.map (·.code)
  | .octave n => 79 :: n.digits
  | .up => [62]
  | .down => [60]

inductive Element
  | note (letter : Letter) (accidentals : List Accidental)
  | rest
  | chord (items : List (Blanks × ChordItem)) (last : Blanks)
  | octave (n : Number)
  | up
  | down
  | volume (n : Number) (le : n.val ≤ 100)
  | tone (n : Number)
  | length (n : Number)
  | tempo (n : Number) (pos : 0 < n.val)

def chordText (items : List (Blanks × ChordItem)) : Score := items.flatMap fun i => i.1.val ++ i.2.text

def Element.text : Element → Score
  | .note l as => l.code :: as.map (·.code)
  | .rest => [82]
  | .chord items last => 91 :: (chordText items ++ (last.val ++ [93]))
  | .octave n => 79 :: n.digits
  | .up => [62]
  | .down => [60]
  | .volume n _ => 86 :: n.digits
  | .tone n => 64 :: n.digits
  | .length n => 76 :: n.digits
  | .tempo n _ => 84 :: n.digits

def Element.type : Element → MmlType
  | .note .. => .note
  | .rest => .rest
  | .chord .. => .chord
  | .octave _ | .up | .down => .octave
  | .volume .. => .volume
  | .tone _ => .tone
  | .length _ => .length
  | .tempo .. => .tempo

def Stops (s : Score) : Prop := s.head?.any isdigit = false ∧ halfscale s = (0, s)

variable {τ : Target} {c : UInt8}

variable {s : Score} {t : Score} (l : Letter) (a : Accidental) (b : Blanks)

variable {p : Parse}

variable {mml mml' : MusicMacroLang} (i : Blanks × ChordItem) (items : List (Blanks × ChordItem))

variable (e : Blanks × Element) (content : List (Blanks × Element)) (last : Blanks)

def share (mml : MusicMacroLang) : Int :=
  if mml.curTuplet + 1 = mml.tupletNotes then
    mml.tupletLength - mml.tupletLength.tdiv mml.tupletNotes * (mml.tupletNotes - 1)
  else mml.tupletLength.tdiv mml.tupletNotes

structure InTuplet (mml : MusicMacroLang) : Prop where
  state : mml.state = .tuplet
  notes : 0 < mml.tupletNotes
  length : 0 ≤ mml.tupletLength
  tempo : 0 < mml.curTempo

theorem tupletLength_eq {mml : MusicMacroLang} (h : 0 < mml.tupletNotes) :
    tupletLength mml = some (share mml, { mml with curTuplet := mml.curTuplet + 1 }) := by
  simp [tupletLength, share, show mml.tupletNotes ≠ 0 by omega]

theorem share_nonneg {mml : MusicMacroLang} (h : InTuplet mml) : 0 ≤ share mml := by
  have hq := Int.tdiv_nonneg h.length (le_of_lt h.notes)
  have hmul := Int.ediv_mul_le mml.tupletLength (show mml.tupletNotes ≠ 0 by have := h.notes; omega)
  rw [← Int.tdiv_eq_ediv_of_nonneg h.length] at hmul
  unfold share
  split
  · rw [mul_sub, mul_one]
    omega
  · exact hq

def remaining (mml : MusicMacroLang) : Int :=
  if mml.curTuplet = mml.tupletNotes then 0
  else mml.tupletLength - mml.tupletLength.tdiv mml.tupletNotes * mml.curTuplet

theorem calcSamples_isSome {tempo : Int} (h : 0 < tempo) (fs num : Int) (dots : Nat) :
    (calcSamples fs tempo num dots).isSome = true := by
  unfold calcSamples
  cases shifts num with
  | none => rfl
  | some p =>
    simp only [show tempo ≠ 0 by omega, if_false]
    split <;> rfl

section

variable {mml : MusicMacroLang} (h : 0 < mml.curTempo)

include h

theorem getSamples_isSome (samples num : Int) (dots : Nat) (plus : Bool) :
    (getSamples mml samples num dots plus).isSome = true := by
  rw [getSamples, isSome_map]
  exact calcSamples_isSome h ..

theorem lengthBody_some (v : LengthVars) : ∃ v', lengthBody τ mml v = some v' ∧ v'.score <:+ v.score := by
  have hget (v : LengthVars) := isSome_iff_exists.mp (getSamples_isSome h v.samples v.num v.dots v.plusMode)
  have hnum (v : LengthVars) : ∃ v', numberdCase mml v = some v' ∧ v'.score <:+ v.score := by
    obtain ⟨samples, hs⟩ := hget v
    rw [numberdCase, hs]
    split_ifs
    · exact ⟨_, rfl, tail_suffix _⟩
    · exact ⟨_, rfl, tail_suffix _⟩
    · exact ⟨_, rfl, suffix_rfl⟩
  have hidle : ∃ v', idleCase τ mml v = some v' ∧ v'.score <:+ v.score := by
    obtain ⟨samples, hs⟩ := hget v
    rw [idleCase, hs]
    split_ifs
    · exact ⟨_, rfl, dropWhile_suffix _⟩
    · exact ⟨_, rfl, tail_suffix _⟩
    · exact ⟨_, rfl, suffix_rfl⟩
  unfold lengthBody
  cases v.state with
  | idle =>
    obtain ⟨v₁, hv₁, hsuffix₁⟩ := hidle
    obtain ⟨v₂, hv₂, hsuffix₂⟩ := hnum v₁
    exact ⟨v₂, by simp only [hv₁, bind_some, hv₂], hsuffix₂.trans hsuffix₁⟩
  | numberd => exact hnum v
  | plus =>
    refine ⟨_, rfl, ?_⟩
    rw [plusCase]
    split_ifs
    · exact dropWhile_suffix _
    · exact suffix_rfl

/-- `sample_length` returns, and takes its length from the front of the score. -/
theorem sampleLength_some (score : Score) : ∃ r, sampleLength τ mml score = some r ∧ r.2 <:+ score := by
  have hloop (fuel : Nat) (v : LengthVars) : ∃ v', lengthLoop τ mml fuel v = some v' ∧ v'.score <:+ v.score := by
    induction fuel generalizing v with
    | zero => exact ⟨v, rfl, suffix_rfl⟩
    | succ fuel ih =>
      rw [lengthLoop]
      split_ifs
      · obtain ⟨v₁, hv₁, hsuffix₁⟩ := lengthBody_some h v
        obtain ⟨v₂, hv₂, hsuffix₂⟩ := ih v₁
        exact ⟨v₂, by rw [hv₁, bind_some, hv₂], hsuffix₂.trans hsuffix₁⟩
      · exact ⟨v, rfl, suffix_rfl⟩
  obtain ⟨samples, hs⟩ := isSome_iff_exists.mp (getSamples_isSome h 0 (-1) 0 false)
  rw [sampleLength, hs, bind_some]
  split_ifs
  · obtain ⟨v, hv, hsuffix⟩ := hloop (score.length + 1) ⟨0, samples, .idle, false, true, -1, score⟩
    exact ⟨_, by rw [hv, map_some], hsuffix⟩
  · exact ⟨_, rfl, suffix_rfl⟩

end

theorem sampleLength_congr (hfs : mml'.fs = mml.fs) (htempo : mml'.curTempo = mml.curTempo)
    (hdef : mml'.defLength = mml.defLength) (score : Score) : sampleLength τ mml' score = sampleLength τ mml score := by
  have hget : getSamples mml' = getSamples mml := by
    funext samples num dots plus
    simp only [getSamples, hfs, htempo, hdef]
  have hbody : lengthBody τ mml' = lengthBody τ mml := by
    funext v
    unfold lengthBody idleCase numberdCase
    rw [hget]
  have hloop (fuel : Nat) : lengthLoop τ mml' fuel = lengthLoop τ mml fuel := by
    induction fuel with
    | zero => rfl
    | succ fuel ih =>
      funext v
      rw [lengthLoop, lengthLoop, hbody, ih]
  rw [sampleLength, sampleLength, hget, hloop]

def blank : Blanks := ⟨[32], by simp [isspace]⟩

end NuttxApps.Mml
