import NuttxApps.Framework.Bytes
import Mathlib.Algebra.Ring.Int.Defs

/-!
# The blocks of a signed package, and its digest

`parse_app_block` finds the data, the signing block, the central directory and the record at the end of a package, in
unsigned 32-bit arithmetic. `verify_digest` hashes the data and the central directory in chunks of 1 MiB and the end
record in one piece. Every call that can fail has its result in `Calls`; the hash and the signature check are parameters
(`Library`).
-/

namespace NuttxApps.ZipVerify

open Bytes

/-- `avb_sha256_*`, `avb_get_algorithm_data` and `avb_rsa_verify` (key, signature, hash). -/
structure Library where
  sha256 : List UInt8 → List UInt8
  length_sha256 (s : List UInt8) : (sha256 s).length = 32
  algorithm : Bool
  rsaVerify : List UInt8 → List UInt8 → List UInt8 → Bool

inductive Section
  | data
  | directory
deriving DecidableEq

/-- The results of the calls. A `read` that fails gives `none`. -/
structure Calls where
  /-- `parse_app_block`: `malloc`, `open`, three times `read`, and `lseek(fd, 0, SEEK_CUR)`. -/
  mallocAppBlock : Bool
  openApp : Int
  (readOffset readMagic readLength : Option (List UInt8))
  tellEocd : Int
  /-- `verify_app`: the signing block, and what the memory holds behind the bytes read. -/
  mallocSignature : Bool
  openSignature : Int
  readSignature : Option (List UInt8)
  memory : Nat → UInt8
  /-- `verify_app`: the key, its size, and what the memory holds if it cannot be read. -/
  statCert : Int
  sizeCert : Nat
  openCert : Int
  readKey : Option (List UInt8)
  keyMemory : Nat → UInt8
  /-- `verify_digest`: the reads of a chunk of a section, in order, and the end record. -/
  openDigest : Int
  mallocBuffer : Bool
  readChunk : Section → Nat → Nat → Option (List UInt8)
  (realloc seekEocd : Bool)
  readEocd : Option (List UInt8)
  bufferMemory : Nat → UInt8

variable (n : Nat) (result : Option (List UInt8))

/-- What `read` puts at the front of a buffer of `n` bytes. -/
def got : List UInt8 := (result.getD []).take n

def count : Int :=
  match result with
  | none => -1
  | some bytes => (bytes.take n).length

/-- `data_block_t`: where a block starts and its 32-bit length. -/
structure Block where
  data : Int
  length : Nat

structure AppBlock where
  (dataBlock signatureBlock centralDirectoryBlock eocdBlock : Block)

def magic : List UInt8 := [65, 80, 75, 32, 83, 105, 103, 32, 66, 108, 111, 99, 107, 32, 52, 50]

def appBlock (commentLen offset length : Nat) (eocdStart : Int) : AppBlock :=
  let signatureLength := length % 2 ^ 32
  let signatureData := (offset + 2 ^ 32 - signatureLength) % 2 ^ 32
  { dataBlock := ⟨0, (signatureData + 2 ^ 32 - 8) % 2 ^ 32⟩
    signatureBlock := ⟨signatureData, signatureLength⟩
    centralDirectoryBlock := ⟨offset, ((eocdStart - offset) % 2 ^ 32).toNat⟩
    eocdBlock := ⟨eocdStart, (commentLen + 22) % 2 ^ 32⟩ }

variable (L : Library) (buflen : Nat) (o : Calls) (commentLen : Nat)

def parseAppBlock : Option AppBlock :=
  if !o.mallocAppBlock then none
  else if o.openApp ≤ 0 then none
  else if count 4 o.readOffset ≠ 4 then none
  else if count 16 o.readMagic ≠ 16 then none
  else if got 16 o.readMagic ≠ magic then none
  else if count 8 o.readLength ≠ 8 then none
  else some (appBlock commentLen (le (got 4 o.readOffset)) (le (got 8 o.readLength)) o.tellEocd)

theorem parseAppBlock_congr {o o' : Calls} (commentLen : Nat) (hmalloc : o.mallocAppBlock = o'.mallocAppBlock)
    (hopen : o.openApp = o'.openApp) (hoffset : o.readOffset = o'.readOffset) (hmagic : o.readMagic = o'.readMagic)
    (hlength : o.readLength = o'.readLength) (htell : o.tellEocd = o'.tellEocd) :
    parseAppBlock o commentLen = parseAppBlock o' commentLen := by
  cases o
  cases o'
  subst hmalloc hopen hoffset hmagic hlength htell
  rfl

def chunkMaxSize : Nat := 1024 * 1024

def calcChunkCount (length : Nat) : Nat := (length + chunkMaxSize - 1) % 2 ^ 32 / chunkMaxSize

/-- The loop of `md_one_chunk`: a chunk, of which `left` bytes are to be read, unless a `read` gives none. -/
def readLoop (buflen : Nat) (reads : Nat → Option (List UInt8)) : Nat → Nat → Nat → Option (List UInt8)
  | _, _, 0 => some []
  | 0, _, _ + 1 => none
  | fuel + 1, j, left + 1 =>
    match got (min (left + 1) buflen) (reads j) with
    | [] => none
    | bytes => (readLoop buflen reads fuel (j + 1) (left + 1 - bytes.length)).map (bytes ++ ·)

def tagged (bytes : List UInt8) (length : Nat) : List UInt8 := 0xa5 :: leBytes 4 length ++ bytes

def mdOneChunk (reads : Nat → Option (List UInt8)) (length : Nat) : Option (List UInt8) :=
  (readLoop buflen reads length 0 length).map (tagged · length)

/-- The loop of `md_file_block`: what is hashed, up to the first chunk that cannot be read. -/
def fileLoop (buflen : Nat) (reads : Nat → Nat → Option (List UInt8)) : Nat → Nat → Nat → List (List UInt8)
  | 0, _, _ => []
  | cnt + 1, i, length =>
    match mdOneChunk buflen (reads i) (min length chunkMaxSize) with
    | none => []
    | some s => s :: fileLoop buflen reads cnt (i + 1) (if chunkMaxSize < length then length - chunkMaxSize else length)

def mdFileBlock (reads : Nat → Nat → Option (List UInt8)) (length : Nat) : List (List UInt8) :=
  fileLoop buflen reads (calcChunkCount length) 0 length

variable (b : AppBlock)

/-- The end record, with the length of the data in place of the offset of the central directory. -/
def eocdBuffer : List UInt8 :=
  let bytes := match o.readEocd with
    | some bytes => bytes.take b.eocdBlock.length
    | none => bytesAt o.bufferMemory 0 b.eocdBlock.length
  splice bytes 16 (leBytes 4 b.dataBlock.length)

def pieces : List (List UInt8) :=
  mdFileBlock buflen (o.readChunk .data) b.dataBlock.length ++
    mdFileBlock buflen (o.readChunk .directory) b.centralDirectoryBlock.length ++
    [tagged (eocdBuffer o b) b.eocdBlock.length]

def summary : List UInt8 :=
  0x5a :: leBytes 4 (calcChunkCount b.dataBlock.length + calcChunkCount b.centralDirectoryBlock.length +
    calcChunkCount b.eocdBlock.length) ++ (pieces buflen o b).flatMap L.sha256

def packageDigest : List UInt8 :=
  L.sha256 (summary L buflen o b)

def memcmp : List UInt8 → List UInt8 → Int
  | x :: s, y :: t => if x = y then memcmp s t else (x.toNat : Int) - y.toNat
  | _, _ => 0

theorem memcmp_eq_zero : ∀ {s t : List UInt8}, s.length = t.length → (memcmp s t = 0 ↔ s = t)
  | [], [], _ => by simp [memcmp]
  | x :: s, y :: t, h => by
    have ih := memcmp_eq_zero (s := s) (t := t) (by simpa using h)
    by_cases hxy : x = y
    · simp [memcmp, hxy, ih]
    · have hne : x.toNat ≠ y.toNat := fun he => hxy (UInt8.toNat_inj.mp he)
      have hcons : x :: s ≠ y :: t := fun he => hxy (List.cons.inj he).1
      rw [memcmp, if_neg hxy]
      exact iff_of_false (by omega) hcons

def toInt (n : Int) : Int := n.bmod (2 ^ 32)

/-- What `verify_digest` returns, and the two digests if they were compared. -/
def verifyDigest (digest : List UInt8) : Int × Option (List UInt8 × List UInt8) :=
  if o.openDigest < 0 then (-1, none)
  else if !o.mallocBuffer then (-1, none)
  else if !o.realloc then (-1, none)
  else
    let sought := toInt (if o.seekEocd then b.eocdBlock.data else -1)
    if sought ≠ b.eocdBlock.data then (sought, none)
    else
      let read := toInt (count b.eocdBlock.length o.readEocd)
      if (read % 2 ^ 32).toNat ≠ b.eocdBlock.length then (read, none)
      else
        let md := packageDigest L buflen o b
        (memcmp digest md, some (digest, md))

variable (F : List UInt8)

def cdOffset : Nat := field F (F.length - commentLen - 6) 4

def blockLength : Nat := field F ((cdOffset commentLen F + 2 ^ 32 - 24) % 2 ^ 32) 8

def eocdStart : Nat := F.length - commentLen - 22

def sectionStart : Section → Nat
  | .data => 0
  | .directory => cdOffset commentLen F

def chunkReads (p i j : Nat) : Option (List UInt8) :=
  some ((F.drop (p + i * chunkMaxSize + j * buflen)).take buflen)

/-- The results of calls that all succeed on a package; the key is empty. -/
def Calls.ofFile (buflen commentLen : Nat) (F : List UInt8) : Calls :=
  let offset := cdOffset commentLen F
  let block := appBlock commentLen offset (blockLength commentLen F) (eocdStart commentLen F)
  { mallocAppBlock := true
    openApp := 3
    readOffset := some ((F.drop (F.length - commentLen - 6)).take 4)
    readMagic := some ((F.drop ((offset + 2 ^ 32 - 16) % 2 ^ 32)).take 16)
    readLength := some ((F.drop ((offset + 2 ^ 32 - 24) % 2 ^ 32)).take 8)
    tellEocd := eocdStart commentLen F
    mallocSignature := true
    openSignature := 3
    readSignature := some ((F.drop block.signatureBlock.data.toNat).take block.signatureBlock.length)
    memory := fun _ => 0
    statCert := 0
    sizeCert := 0
    openCert := 3
    readKey := some []
    keyMemory := fun _ => 0
    openDigest := 3
    mallocBuffer := true
    readChunk := fun s => chunkReads buflen F (sectionStart commentLen F s)
    realloc := true
    seekEocd := true
    readEocd := some ((F.drop (eocdStart commentLen F)).take (commentLen + 22))
    bufferMemory := fun _ => 0 }

section OfFile

variable (buflen n : Nat) (F : List UInt8)

@[simp] theorem ofFile_mallocAppBlock : (Calls.ofFile buflen n F).mallocAppBlock = true := rfl

@[simp] theorem ofFile_openApp : (Calls.ofFile buflen n F).openApp = 3 := rfl

@[simp] theorem ofFile_readOffset :
    (Calls.ofFile buflen n F).readOffset = some ((F.drop (F.length - n - 6)).take 4) := rfl

@[simp] theorem ofFile_readMagic :
    (Calls.ofFile buflen n F).readMagic = some ((F.drop ((cdOffset n F + 2 ^ 32 - 16) % 2 ^ 32)).take 16) := rfl

@[simp] theorem ofFile_readLength :
    (Calls.ofFile buflen n F).readLength = some ((F.drop ((cdOffset n F + 2 ^ 32 - 24) % 2 ^ 32)).take 8) := rfl

@[simp] theorem ofFile_tellEocd : (Calls.ofFile buflen n F).tellEocd = eocdStart n F := rfl

@[simp] theorem ofFile_openDigest : (Calls.ofFile buflen n F).openDigest = 3 := rfl

@[simp] theorem ofFile_mallocBuffer : (Calls.ofFile buflen n F).mallocBuffer = true := rfl

@[simp] theorem ofFile_readChunk (s : Section) :
    (Calls.ofFile buflen n F).readChunk s = chunkReads buflen F (sectionStart n F s) := rfl

@[simp] theorem ofFile_realloc : (Calls.ofFile buflen n F).realloc = true := rfl

@[simp] theorem ofFile_seekEocd : (Calls.ofFile buflen n F).seekEocd = true := rfl

@[simp] theorem ofFile_readEocd :
    (Calls.ofFile buflen n F).readEocd = some ((F.drop (eocdStart n F)).take (n + 22)) := rfl

end OfFile

/-- Forty bytes, the length of a signing block that starts with them, the magic and an end record. -/
def samplePackage : List UInt8 :=
  List.replicate 40 0 ++ leBytes 8 64 ++ magic ++ List.replicate 16 0 ++ leBytes 4 64 ++ [0, 0]

end NuttxApps.ZipVerify
