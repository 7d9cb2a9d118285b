import Mathlib.Data.List.TakeWhile

/-!
# Newlines in received files

`zm_writefile` with `zcnl` set turns CR LF, LF CR, CR and LF into LF. It writes a run of other characters when a newline
comes, and goes on while `zm_write` returns `OK`, which is 0; but `zm_write` returns the number of bytes it wrote.
`writefile_converts_iff` says for which texts this makes no difference.
-/

namespace NuttxApps.Zmodem.Newline

open List

/-- `CONFIG_SYSTEM_ZMODEM_WRITESIZE`, and how many of the bytes it is given each `write` takes: at least one. -/
structure Writer where
  writesize : Nat
  taken : List UInt8 → Nat
  taken_pos : ∀ buffer, buffer ≠ [] → 0 < taken buffer
  taken_le : ∀ buffer, taken buffer ≤ buffer.length

def Writer.wrsize (w : Writer) (remaining : Nat) : Nat :=
  if 0 < w.writesize ∧ w.writesize < remaining then w.writesize else remaining

def Writer.gulp (w : Writer) (buffer : List UInt8) : Nat := w.taken (buffer.take (w.wrsize buffer.length))

variable (w : Writer)

theorem Writer.gulp_pos {buffer : List UInt8} (h : buffer ≠ []) : 0 < w.gulp buffer := by
  have hlen : 0 < buffer.length := length_pos_iff.mpr h
  have hsize : 0 < w.wrsize buffer.length := by
    rw [Writer.wrsize]
    split <;> omega
  refine w.taken_pos _ fun hnil => ?_
  rcases take_eq_nil_iff.mp hnil with hzero | hempty
  · omega
  · exact h hempty

def Writer.loop (w : Writer) (file buffer : List UInt8) : List UInt8 :=
  if buffer = [] then file else w.loop (file ++ buffer.take (w.gulp buffer)) (buffer.drop (w.gulp buffer))
termination_by buffer.length
decreasing_by
  rename_i h
  have := w.gulp_pos h
  have := length_pos_iff.mpr h
  rw [length_drop]
  omega

def Writer.write (file buffer : List UInt8) : Int × List UInt8 := (buffer.length, w.loop file buffer)

variable (file buffer : List UInt8)

theorem Writer.loop_eq : w.loop file buffer = file ++ buffer := by
  fun_induction Writer.loop with
  | case1 file => rw [append_nil]
  | case2 file buffer h ih => rw [ih, append_assoc, take_append_drop]

theorem Writer.write_eq : w.write file buffer = ((buffer.length : Int), file ++ buffer) := by
  rw [Writer.write, Writer.loop_eq]

def isNewline (ch : UInt8) : Bool := ch == 10 || ch == 13

/-- The variables of `zm_writefile`: the text from `start` on, the length of the run, the result, the static variable,
and the file. -/
structure Locals where
  start : List UInt8
  nbytes : Nat
  ret : Int
  newline : Bool
  file : List UInt8

section

variable (w : Writer)

def Locals.flush (s : Locals) (buffer : List UInt8) : Locals :=
  if s.nbytes > 0 then
    let (ret, file) := w.write s.file (s.start.take s.nbytes)
    { s with ret := ret, file := file, start := buffer, nbytes := 0 }
  else s

def Locals.body (s : Locals) (ch : UInt8) (buffer : List UInt8) : Locals :=
  if isNewline ch then
    let s := s.flush w buffer
    if s.ret = 0 then
      if s.newline then { s with newline := false }
      else
        let (ret, file) := w.write s.file [10]
        { s with ret := ret, file := file, newline := true }
    else s
  else { s with nbytes := s.nbytes + 1, newline := false }

def Locals.loop (s : Locals) : List UInt8 → Locals
  | [] => s
  | ch :: buffer => if s.ret = 0 then (s.body w ch buffer).loop buffer else s

def Locals.finish (s : Locals) : Int × Bool × List UInt8 :=
  if s.ret = 0 ∧ s.nbytes > 0 then
    let (ret, file) := w.write s.file (s.start.take s.nbytes)
    (ret, s.newline, file)
  else (s.ret, s.newline, s.file)

/-- `zm_writefile`: its result, the static variable, and what it appends to the file. -/
def writefile (zcnl newline : Bool) (buffer : List UInt8) : Int × Bool × List UInt8 :=
  if zcnl then (Locals.loop w ⟨buffer, 0, 0, newline, []⟩ buffer).finish w
  else
    let (ret, file) := w.write [] buffer
    (ret, newline, file)

end

/-- The text with each newline turned into LF, where CR LF and LF CR are one newline. -/
def convert : List UInt8 → List UInt8
  | [] => []
  | a :: b :: text =>
    if isNewline a then if isNewline b ∧ a ≠ b then 10 :: convert text else 10 :: convert (b :: text)
    else a :: convert (b :: text)
  | [a] => [if isNewline a then 10 else a]

/-- The text has no newline; or it is one of two characters; or one of one character, and none has just ended. -/
def OneWrite (newline : Bool) (buffer : List UInt8) : Prop :=
  (∀ ch ∈ buffer, ¬ isNewline ch) ∨ (buffer = [13, 10] ∨ buffer = [10, 13]) ∨
    newline = false ∧ (buffer = [13] ∨ buffer = [10])

section

variable {w : Writer} {s : Locals} {text run : List UInt8} {ch : UInt8}

theorem convert_cons_of_not (h : ¬ isNewline ch) (text : List UInt8) : convert (ch :: text) = ch :: convert text := by
  cases text with
  | nil => simp [convert, h]
  | cons b text => rw [convert, if_neg h]

theorem convert_append (h : ∀ ch ∈ run, ¬ isNewline ch) (text : List UInt8) :
    convert (run ++ text) = run ++ convert text := by
  induction run with
  | nil => rfl
  | cons ch run ih =>
    obtain ⟨hch, hrun⟩ := forall_mem_cons.mp h
    rw [cons_append, convert_cons_of_not hch, ih hrun, cons_append]

theorem convert_eq_nil_iff : convert text = [] ↔ text = [] := by
  fun_cases convert text <;> simp

theorem convert_eq_lf_iff (h : isNewline ch) : convert (ch :: text) = [10] ↔
    text = [] ∨ ∃ b, text = [b] ∧ isNewline b ∧ ch ≠ b := by
  cases text with
  | nil => simp [convert, h]
  | cons b text =>
    rw [convert, if_pos h]
    split
    · rename_i hb
      simp only [cons.injEq, true_and, convert_eq_nil_iff, reduceCtorEq, false_or]
      refine ⟨fun hnil => ⟨b, ⟨rfl, hnil⟩, hb⟩, ?_⟩
      rintro ⟨_, ⟨-, hnil⟩, -⟩
      exact hnil
    · rename_i hb
      simp only [cons.injEq, true_and, convert_eq_nil_iff, reduceCtorEq, false_or, false_iff]
      rintro ⟨_, ⟨rfl, -⟩, hb'⟩
      exact hb hb'

theorem loop_of_ret (h : s.ret ≠ 0) (text : List UInt8) : s.loop w text = s := by
  cases text with
  | nil => rfl
  | cons ch text => rw [Locals.loop, if_neg h]

theorem loop_append (hret : s.ret = 0) (h : ∀ ch ∈ run, ¬ isNewline ch) (hne : run ≠ []) (text : List UInt8) :
    s.loop w (run ++ text) =
      ({ s with nbytes := s.nbytes + run.length, newline := false } : Locals).loop w text := by
  induction run generalizing s with
  | nil => exact absurd rfl hne
  | cons ch run ih =>
    obtain ⟨hch, hrun⟩ := forall_mem_cons.mp h
    rw [cons_append, Locals.loop, if_pos hret, Locals.body, if_neg hch]
    rcases eq_nil_or_concat run with rfl | hcons
    · rfl
    · rw [ih (by exact hret) hrun (by rintro rfl; simp at hcons)]
      simp only [length_cons, Nat.add_assoc, Nat.add_comm 1]

theorem flush_of_pos (hpos : 0 < s.nbytes) (hstart : s.nbytes ≤ s.start.length) (text : List UInt8) :
    s.flush w text =
      { s with ret := s.nbytes, file := s.file ++ s.start.take s.nbytes, start := text, nbytes := 0 } := by
  rw [Locals.flush, if_pos hpos, Writer.write_eq, length_take_of_le hstart]

theorem flush_of_zero (hzero : s.nbytes = 0) (text : List UInt8) : s.flush w text = s := by
  rw [Locals.flush, if_neg (by omega)]

theorem loop_newline_of_pos (hret : s.ret = 0) (hpos : 0 < s.nbytes) (hstart : s.nbytes ≤ s.start.length)
    (h : isNewline ch) (text : List UInt8) :
    s.loop w (ch :: text) =
      { s with ret := s.nbytes, file := s.file ++ s.start.take s.nbytes, start := text, nbytes := 0 } := by
  have hne : (s.nbytes : Int) ≠ 0 := by omega
  rw [Locals.loop, if_pos hret, Locals.body, if_pos h, flush_of_pos hpos hstart]
  rw [if_neg hne, loop_of_ret (by exact hne)]

theorem loop_newline_of_false (hret : s.ret = 0) (hzero : s.nbytes = 0) (hnew : s.newline = false) (h : isNewline ch)
    (text : List UInt8) : s.loop w (ch :: text) = { s with ret := 1, file := s.file ++ [10], newline := true } := by
  rw [Locals.loop, if_pos hret, Locals.body, if_pos h, flush_of_zero hzero]
  rw [if_pos hret, if_neg (by simp [hnew]), Writer.write_eq]
  exact loop_of_ret (by simp) text

theorem loop_newline_of_true (hret : s.ret = 0) (hzero : s.nbytes = 0) (hnew : s.newline = true) (h : isNewline ch)
    (text : List UInt8) : s.loop w (ch :: text) = ({ s with newline := false } : Locals).loop w text := by
  rw [Locals.loop, if_pos hret, Locals.body, if_pos h, flush_of_zero hzero]
  rw [if_pos hret, if_pos hnew]

theorem finish_of_ret (h : s.ret ≠ 0) : s.finish w = (s.ret, s.newline, s.file) := by
  rw [Locals.finish, if_neg fun hfin => h hfin.1]

theorem finish_of_pos (hret : s.ret = 0) (hpos : 0 < s.nbytes) (hstart : s.nbytes ≤ s.start.length) :
    s.finish w = ((s.nbytes : Int), s.newline, s.file ++ s.start.take s.nbytes) := by
  rw [Locals.finish, if_pos ⟨hret, hpos⟩, Writer.write_eq, length_take_of_le hstart]

theorem finish_loop_run (hret : s.ret = 0) (hzero : s.nbytes = 0) (h : ∀ ch ∈ run, ¬ isNewline ch) (hne : run ≠ [])
    (hstart : run.length ≤ s.start.length) (htext : ∀ ch ∈ text.head?, isNewline ch) :
    (s.loop w (run ++ text)).finish w = ((run.length : Int), false, s.file ++ s.start.take run.length) := by
  have hpos : 0 < run.length := length_pos_iff.mpr hne
  rw [loop_append hret h hne, hzero, Nat.zero_add]
  cases text with
  | nil => exact finish_of_pos hret hpos hstart
  | cons ch text =>
    rw [loop_newline_of_pos (by exact hret) hpos hstart (htext ch rfl)]
    exact finish_of_ret (by dsimp only; omega)

theorem isNewline_iff : isNewline ch ↔ ch = 10 ∨ ch = 13 := by simp [isNewline]

theorem exists_run (text : List UInt8) : ∃ run more, text = run ++ more ∧ (∀ ch ∈ run, ¬ isNewline ch) ∧
    ∀ ch ∈ more.head?, isNewline ch := by
  refine ⟨text.takeWhile fun ch => !isNewline ch, text.dropWhile fun ch => !isNewline ch,
    takeWhile_append_dropWhile.symm, fun ch hch => ?_, fun ch hch => ?_⟩
  · simpa using mem_takeWhile_imp hch
  · have hhead := head?_dropWhile_not (fun ch => !isNewline ch) text
    rw [Option.mem_def.mp hch] at hhead
    simpa using hhead

theorem oneWrite_cons_iff {newline : Bool} (h : isNewline ch) : OneWrite newline (ch :: text) ↔
    (∃ b, text = [b] ∧ isNewline b ∧ ch ≠ b) ∨ newline = false ∧ text = [] := by
  have hsome : ¬ ∀ c ∈ ch :: text, ¬ isNewline c := fun hall => hall ch mem_cons_self h
  rw [OneWrite, or_iff_right hsome]
  refine or_congr ?_ ?_
  · constructor
    · rintro (heq | heq) <;> obtain ⟨rfl, rfl⟩ := cons.inj heq
      · exact ⟨10, rfl, by decide, by decide⟩
      · exact ⟨13, rfl, by decide, by decide⟩
    · rintro ⟨b, rfl, hb, hne⟩
      rcases isNewline_iff.mp h with rfl | rfl
      · exact .inr (by simpa [hne.symm] using isNewline_iff.mp hb)
      · exact .inl (by simpa [hne.symm] using isNewline_iff.mp hb)
  · rcases isNewline_iff.mp h with rfl | rfl <;> simp

theorem oneWrite_run_iff {newline : Bool} (h : ∀ ch ∈ run, ¬ isNewline ch) (hne : run ≠ [])
    (htext : ∀ ch ∈ text.head?, isNewline ch) : OneWrite newline (run ++ text) ↔ text = [] := by
  obtain ⟨c, run, rfl⟩ := exists_cons_of_ne_nil hne
  obtain ⟨hc, hrun⟩ := forall_mem_cons.mp h
  have hc10 : c ≠ 10 := by rintro rfl; exact hc (by decide)
  have hc13 : c ≠ 13 := by rintro rfl; exact hc (by decide)
  simp only [OneWrite, cons_append, cons.injEq, hc10, hc13, false_and, or_false, and_false]
  refine ⟨fun hall => ?_, ?_⟩
  · cases text with
    | nil => rfl
    | cons ch text => exact absurd (htext ch rfl) (hall ch (by simp))
  · rintro rfl
    simpa using h

end

def Converts (newline : Bool) (buffer : List UInt8) : Prop :=
  0 ≤ (writefile w true newline buffer).1 ∧ (writefile w true newline buffer).2.2 = convert buffer

section

variable {w : Writer} {newline : Bool} {buffer text run : List UInt8} {ch : UInt8}

theorem converts_of_eq {ret : Int} {newline' : Bool} {file : List UInt8} (hret : 0 ≤ ret)
    (h : writefile w true newline buffer = (ret, newline', file)) :
    Converts w newline buffer ↔ file = convert buffer := by
  rw [Converts, h]
  exact and_iff_right hret

theorem writefile_run (w : Writer) (newline : Bool) (h : ∀ ch ∈ run, ¬ isNewline ch) (hne : run ≠ [])
    (htext : ∀ ch ∈ text.head?, isNewline ch) :
    writefile w true newline (run ++ text) = ((run.length : Int), false, run) := by
  rw [writefile, if_pos rfl, finish_loop_run rfl rfl h hne (show run.length ≤ (run ++ text).length by simp) htext,
    nil_append, take_left]

theorem converts_run_iff (h : ∀ ch ∈ run, ¬ isNewline ch) (hne : run ≠ []) (htext : ∀ ch ∈ text.head?, isNewline ch) :
    Converts w newline (run ++ text) ↔ text = [] := by
  rw [converts_of_eq (by omega) (writefile_run w newline h hne htext), convert_append h, ← convert_eq_nil_iff]
  exact self_eq_append_right

theorem converts_newline_iff (h : isNewline ch) : Converts w false (ch :: text) ↔ convert (ch :: text) = [10] := by
  have hwrite : writefile w true false (ch :: text) = (1, true, [10]) := by
    rw [writefile, if_pos rfl, loop_newline_of_false rfl rfl rfl h]
    exact finish_of_ret (by simp)
  rw [converts_of_eq (by decide) hwrite, eq_comm]

theorem not_converts_second (h : isNewline ch) : ¬ Converts w true [ch] := by
  have hwrite : writefile w true true [ch] = (0, false, []) := by
    rw [writefile, if_pos rfl, loop_newline_of_true rfl rfl rfl h]
    rfl
  rw [converts_of_eq (by decide) hwrite]
  simp [convert]

theorem converts_second_newline_iff {b : UInt8} (h : isNewline ch) (hb : isNewline b) :
    Converts w true (ch :: b :: text) ↔ convert (ch :: b :: text) = [10] := by
  have hwrite : writefile w true true (ch :: b :: text) = (1, true, [10]) := by
    rw [writefile, if_pos rfl, loop_newline_of_true rfl rfl rfl h, loop_newline_of_false rfl rfl rfl hb]
    exact finish_of_ret (by simp)
  rw [converts_of_eq (by decide) hwrite, eq_comm]

theorem not_converts_second_run (h : isNewline ch) (hrun : ∀ ch ∈ run, ¬ isNewline ch) (hne : run ≠ [])
    (htext : ∀ ch ∈ text.head?, isNewline ch) : ¬ Converts w true (ch :: (run ++ text)) := by
  have hwrite : writefile w true true (ch :: (run ++ text)) =
      ((run.length : Int), false, (ch :: (run ++ text)).take run.length) := by
    rw [writefile, if_pos rfl, loop_newline_of_true rfl rfl rfl h,
      finish_loop_run rfl rfl hrun hne (show run.length ≤ (ch :: (run ++ text)).length by simp; omega) htext,
      nil_append]
  rw [converts_of_eq (by omega) hwrite]
  intro heq
  have hlen := congrArg List.length heq
  obtain ⟨c, run, rfl⟩ := exists_cons_of_ne_nil hne
  have hc := (forall_mem_cons.mp hrun).1
  rw [cons_append, convert, if_pos h, if_neg fun hb => hc hb.1, ← cons_append, convert_append hrun] at hlen
  simp at hlen
  omega

end

theorem writefile_converts_iff (newline : Bool) (buffer : List UInt8) :
    Converts w newline buffer ↔ OneWrite newline buffer := by
  obtain ⟨run, text, rfl, hrun, htext⟩ := exists_run buffer
  by_cases hne : run = []
  · subst hne
    rw [nil_append]
    cases text with
    | nil =>
      rw [converts_of_eq (Int.le_refl 0) (show writefile w true newline [] = (0, newline, []) from rfl)]
      simp [convert, OneWrite]
    | cons ch text =>
      have hch : isNewline ch := htext ch rfl
      rw [oneWrite_cons_iff hch]
      cases newline with
      | false =>
        rw [converts_newline_iff hch, convert_eq_lf_iff hch]
        simp [or_comm]
      | true =>
        -- the newline is skipped, and the rest of the text begins with it
        obtain ⟨run, more, rfl, hrun, hmore⟩ := exists_run text
        by_cases hne : run = []
        · subst hne
          rw [nil_append]
          cases more with
          | nil => simpa using not_converts_second hch
          | cons b more =>
            rw [converts_second_newline_iff hch (hmore b rfl), convert_eq_lf_iff hch]
            simp
        · refine iff_of_false (not_converts_second_run hch hrun hne hmore) ?_
          obtain ⟨c, run, rfl⟩ := exists_cons_of_ne_nil hne
          have hc := (forall_mem_cons.mp hrun).1
          rintro (⟨b, heq, hb, -⟩ | ⟨hfalse, -⟩)
          · exact hc ((List.cons.inj heq).1 ▸ hb)
          · simp at hfalse
  · rw [converts_run_iff hrun hne htext, oneWrite_run_iff hrun hne htext]

def Writer.whole : Writer := ⟨0, length, fun _ h => length_pos_iff.mpr h, fun _ => Nat.le_refl _⟩

theorem two_lines_not_converted :
    writefile .whole true false [97, 10, 98] = (1, false, [97]) ∧ ¬ Converts .whole false [97, 10, 98] := by
  have hrun : ∀ ch ∈ ([97] : List UInt8), ¬ isNewline ch := forall_mem_singleton.mpr (by decide)
  have htext : ∀ ch ∈ ([10, 98] : List UInt8).head?, isNewline ch := fun _ hch => Option.mem_some.mp hch ▸ rfl
  exact ⟨writefile_run .whole false hrun (by decide) htext,
    fun h => absurd ((converts_run_iff hrun (by decide) htext).mp h) (by decide)⟩

end NuttxApps.Zmodem.Newline
