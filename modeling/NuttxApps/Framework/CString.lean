import Mathlib.Data.List.Basic

/-!
# C strings in memory

A pointer is modelled by the list of the bytes from it to the end of the block
it points into. A function that walks a string returns `none` where it reads
past that end, so `some` states that the reads stay inside the block.
-/

namespace NuttxApps.CString

/-- The bytes of a C string literal or character constants. -/
def chars (cs : List Char) : List UInt8 := cs.map Char.toUInt8

def decimal (i : Int) : List UInt8 :=
  chars (if i < 0 then '-' :: Nat.toDigits 10 i.natAbs else Nat.toDigits 10 i.natAbs)

def strlen : List UInt8 → Option Nat
  | [] => none
  | c :: m => if c = 0 then some 0 else (strlen m).map (· + 1)

def str : List UInt8 → Option (List UInt8)
  | [] => none
  | c :: m => if c = 0 then some [] else (str m).map (c :: ·)

/-- `strchr`: the offset of the first `c` of the string, or `some none` for `NULL`. -/
def strchr (c : UInt8) : List UInt8 → Option (Option Nat)
  | [] => none
  | x :: m => if x = c then some (some 0) else if x = 0 then some none else
    (strchr c m).map (Option.map (· + 1))

variable {s : List UInt8}

theorem strlen_append (hs : 0 ∉ s) (m : List UInt8) : strlen (s ++ 0 :: m) = some s.length := by
  induction s with
  | nil => simp [strlen]
  | cons c s ih =>
    rw [List.mem_cons, not_or] at hs
    simp [strlen, ih hs.2, Ne.symm hs.1]

end NuttxApps.CString
