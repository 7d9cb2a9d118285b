import NuttxApps.Framework.Crc

/-!
# Sending ZMODEM frames

`putzdle_cases` says all that a receiver needs of the escapes: a byte is sent as it is or as a sequence that gives it
back, and no byte sent is XON, XOFF or, unless it starts a sequence, `ZDLE`. The CRC routines are any functions that can
be applied piecewise and leave the usual residues (`Crcs`).
-/

namespace NuttxApps.Zmodem

open Crc (be16 le32)

/-- `crc16xmodempart` and `crc32part`, with the properties the protocol relies on. -/
structure Crcs where
  crc16 : List UInt8 → UInt16 → UInt16
  crc32 : List UInt8 → UInt32 → UInt32
  crc16_append (s t : List UInt8) (c : UInt16) : crc16 (s ++ t) c = crc16 t (crc16 s c)
  crc32_append (s t : List UInt8) (c : UInt32) : crc32 (s ++ t) c = crc32 t (crc32 s c)
  crc16_residue (s : List UInt8) : crc16 (s ++ be16 (crc16 s 0)) 0 = 0
  crc32_residue (s : List UInt8) : crc32 (s ++ le32 (~~~ crc32 s 0xffffffff)) 0xffffffff = 0xdebb20e3

def Crcs.library : Crcs where
  crc16 := Crc.crc16xmodempart
  crc32 := Crc.crc32part
  crc16_append := Crc.crc16xmodempart_append
  crc32_append := Crc.crc32part_append
  crc16_residue := Crc.crc16xmodempart_residue
  crc32_residue := Crc.crc32part_residue

/-- `ZM_FLAG_CRC32`, `ZM_FLAG_ESCCTRL` and `ZM_FLAG_ATSIGN` of the sender. -/
structure Flags where
  (crc32 escctrl atsign : Bool)

variable (C : Crcs) (big : Bool) (f : Flags)

def escapes (ch : UInt8) : Bool :=
  let ch7 := ch &&& 0x7f
  ch == 0x18 || ch7 == 0x10 || ch7 == 0x11 || ch7 == 0x13 || ch7 == 0x1d || ch7 == 0x0d && f.atsign ||
    ch7 < 0x20 && f.escctrl || ch7 == 0x7f || ch == 0xff

def escaped (ch : UInt8) : UInt8 := if ch = 0x7f then 0x6c else if ch = 0xff then 0x6d else ch ^^^ 0x40

def putzdle (ch : UInt8) : List UInt8 × Flags :=
  (if escapes f ch then [0x18, escaped ch] else [ch], { f with atsign := ch &&& 0x7f == 0x40 })

def encode (f : Flags) : List UInt8 → List UInt8
  | [] => []
  | ch :: s => (putzdle f ch).1 ++ encode (putzdle f ch).2 s

def escapeCount (f : Flags) : List UInt8 → Nat
  | [] => 0
  | ch :: s => (if escapes f ch then 1 else 0) + escapeCount (putzdle f ch).2 s

def after (f : Flags) : List UInt8 → Flags
  | [] => f
  | ch :: s => after (putzdle f ch).2 s

def unescape (ch : UInt8) : UInt8 := if ch = 0x6c then 0x7f else if ch = 0x6d then 0xff else ch ^^^ 0x40

theorem putzdle_cases (ch : UInt8) :
    (∃ e, (putzdle f ch).1 = [0x18, e] ∧ unescape e = ch ∧ e ≠ 0x18 ∧ e ≠ 0x11 ∧ e ≠ 0x13 ∧ (e < 0x68 ∨ 0x6b < e)) ∨
      (putzdle f ch).1 = [ch] ∧ ch ≠ 0x18 ∧ ch ≠ 0x11 ∧ ch ≠ 0x13 := by
  have hall : ∀ n < 256, ∀ escctrl atsign : Bool,
      if escapes ⟨false, escctrl, atsign⟩ (UInt8.ofNat n) then
        unescape (escaped (UInt8.ofNat n)) = UInt8.ofNat n ∧ escaped (UInt8.ofNat n) ≠ 0x18 ∧
          escaped (UInt8.ofNat n) ≠ 0x11 ∧ escaped (UInt8.ofNat n) ≠ 0x13 ∧
          (escaped (UInt8.ofNat n) < 0x68 ∨ 0x6b < escaped (UInt8.ofNat n))
      else UInt8.ofNat n ≠ 0x18 ∧ UInt8.ofNat n ≠ 0x11 ∧ UInt8.ofNat n ≠ 0x13 := by
    decide +kernel
  have h := hall ch.toNat ch.toNat_lt f.escctrl f.atsign
  rw [UInt8.ofNat_toNat] at h
  rw [putzdle]
  have hflags : escapes ⟨false, f.escctrl, f.atsign⟩ ch = escapes f ch := rfl
  rw [hflags] at h
  split_ifs at h ⊢
  · exact .inl ⟨escaped ch, rfl, h⟩
  · exact .inr ⟨rfl, h⟩

section

variable (s : List UInt8)

theorem length_encode : (encode f s).length = s.length + escapeCount f s := by
  induction s generalizing f with
  | nil => rfl
  | cons ch s ih =>
    have hput : (putzdle f ch).1.length = 1 + if escapes f ch then 1 else 0 := by
      rw [putzdle]
      split <;> rfl
    rw [encode, escapeCount, List.length_append, List.length_cons, hput, ih]
    omega

theorem escapeCount_le : escapeCount f s ≤ s.length := by
  induction s generalizing f with
  | nil => exact Nat.le_refl 0
  | cons ch s ih =>
    have := ih (putzdle f ch).2
    rw [escapeCount, List.length_cons]
    split <;> omega

end

/-- The bytes of the CRC of the data and the terminator `ZCRCW`, which is taken byte by byte. -/
def crcBytes (data : List UInt8) : List UInt8 :=
  if f.crc32 then le32 (~~~ (data ++ [0x6b]).foldl (fun c b => C.crc32 [b] c) 0xffffffff)
  else be16 ((data ++ [0x6b]).foldl (fun c b => C.crc16 [b] c) 0)

/-- A data packet: the data, the terminator behind `ZDLE`, and the CRC of both. -/
def packet (data : List UInt8) : List UInt8 :=
  encode f data ++ [0x18, 0x6b] ++ encode (after f data) (crcBytes C f data)

/-- The `n` last bytes of `data` as they are read, if the bytes written so far, `out`, went over it. -/
def reread (f : Flags) (out data : List UInt8) : Nat → List UInt8
  | 0 => []
  | n + 1 =>
    let ch := (out ++ data.drop out.length).getD (data.length - (n + 1)) 0
    ch :: reread (putzdle f ch).2 (out ++ (putzdle f ch).1) data n

/-- `zm_senddata`; the buffer can be `scratch` itself, in which the packet is composed. -/
def senddata (inplace : Bool) (f : Flags) (data : List UInt8) : List UInt8 :=
  packet C f (if inplace then reread f [] data data.length else data)

def encnibble (n : UInt8) : UInt8 := if n < 10 then n + 0x30 else n + 0x61 - 10

def puthex8 (ch : UInt8) : List UInt8 := [encnibble (ch >>> 4 &&& 0xf), encnibble (ch &&& 0xf)]

variable (type : UInt8)

/-- The first byte of the `int` that holds the type of a header. -/
def typeByte : UInt8 := if big then 0 else type

variable (buffer : Vector UInt8 4)

def hdrcrc16 : UInt16 :=
  C.crc16 buffer.toList (C.crc16 [typeByte big type] 0)

def hdrcrc32 : UInt32 :=
  C.crc32 buffer.toList (C.crc32 [typeByte big type] 0xffffffff)

/-- `zm_sendhexhdr`; XON follows, unless the header is `ZACK` or `ZFIN`. -/
def sendhexhdr : List UInt8 :=
  [0x2a, 0x2a, 0x18, 0x42] ++ (type :: buffer.toList ++ be16 (hdrcrc16 C big type buffer)).flatMap puthex8 ++
    [0x0d, 0x0a] ++ if type ≠ 3 ∧ type ≠ 8 then [0x11] else []

def sendbin16hdr : List UInt8 :=
  [0x2a, 0x18, 0x41] ++ encode f (type :: buffer.toList ++ be16 (hdrcrc16 C big type buffer))

def sendbin32hdr : List UInt8 :=
  [0x2a, 0x18, 0x43] ++ encode f (type :: buffer.toList ++ le32 (~~~ hdrcrc32 C big type buffer))

end NuttxApps.Zmodem
