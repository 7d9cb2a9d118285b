import NuttxApps.Framework.Digest
import NuttxApps.ZipVerify.Package

/-!
# What the digest of a package covers

The digest of a package covers it outside its signing block, if its sections lie inside it (`digest_covers_package`).
The length of the signing block is not checked. If it is too large, the length of the data wraps around, and the data
are not hashed to their end (`fileLoop_set`, `unhashed_data_passes`).
-/

namespace NuttxApps.ZipVerify

open Bytes Digest
open List hiding le min

theorem take_drop_append (F : List UInt8) (p m n : Nat) :
    (F.drop p).take m ++ (F.drop (p + m)).take n = (F.drop p).take (m + n) := by
  rw [take_add, drop_drop]

variable {buflen : Nat}

theorem readLoop_file (hbuf : 0 < buflen) (F : List UInt8) (p : Nat) {fuel left : Nat} (j : Nat)
    (hfuel : left ≤ fuel) :
    readLoop buflen (fun j => some ((F.drop (p + j * buflen)).take buflen)) fuel j left =
      if left = 0 ∨ p + j * buflen + left ≤ F.length then some ((F.drop (p + j * buflen)).take left) else none := by
  induction fuel generalizing j left with
  | zero => simp [readLoop, Nat.le_zero.mp hfuel]
  | succ fuel ih =>
    cases left with
    | zero => simp [readLoop]
    | succ left =>
      have hgot : got (min (left + 1) buflen) (some ((F.drop (p + j * buflen)).take buflen)) =
          (F.drop (p + j * buflen)).take (min (left + 1) buflen) := by
        rw [got, Option.getD_some, take_take, min_eq_left (min_le_right _ _)]
      have hnext : p + (j + 1) * buflen = p + j * buflen + buflen := by rw [Nat.succ_mul]; omega
      rw [readLoop, hgot]
      rcases hbytes : (F.drop (p + j * buflen)).take (min (left + 1) buflen) with _ | ⟨x, bytes⟩
      · -- behind the end of the file
        have hend : F.length ≤ p + j * buflen := by
          have := congrArg List.length hbytes
          simp only [length_take, length_drop, length_nil] at this
          omega
        exact (if_neg (by omega)).symm
      · have hlen : (x :: bytes).length = min (min (left + 1) buflen) (F.length - (p + j * buflen)) := by
          rw [← hbytes, length_take, length_drop]
        have hpos : 0 < (x :: bytes).length := Nat.succ_pos _
        dsimp only
        rw [ih (j + 1) (by omega), hnext]
        by_cases hfile : p + j * buflen + (left + 1) ≤ F.length
        · rw [if_pos (by omega), if_pos (.inr hfile), Option.map_some]
          rcases Nat.le_total (left + 1) buflen with hle | hle
          · have hleft : left + 1 - (x :: bytes).length = 0 := by omega
            rw [hleft, take_zero, append_nil, ← hbytes, min_eq_left hle]
          · have hleft : left + 1 - (x :: bytes).length = left + 1 - buflen := by omega
            rw [hleft, ← hbytes, min_eq_right hle, take_drop_append, Nat.add_sub_of_le hle]
        · rw [if_neg (by omega), if_neg (by omega)]
          rfl

theorem mdOneChunk_file (hbuf : 0 < buflen) (F : List UInt8) (p length : Nat) :
    mdOneChunk buflen (fun j => some ((F.drop (p + j * buflen)).take buflen)) length =
      if length = 0 ∨ p + length ≤ F.length then some (tagged ((F.drop p).take length) length) else none := by
  have h := readLoop_file hbuf F p 0 (Nat.le_refl length)
  rw [Nat.zero_mul, add_zero] at h
  rw [mdOneChunk, h]
  split_ifs <;> rfl

variable {m : Nat} (bytes : List UInt8) (length : Nat)

theorem drop_tagged : (tagged bytes length).drop 5 = bytes := by
  rw [tagged, cons_append, drop_succ_cons, drop_left' (length_leBytes 4 length)]

section FileLoop

variable {buflen : Nat} (hbuf : 0 < buflen) (F : List UInt8) (p : Nat)

theorem length_fileLoop_le (reads : Nat → Nat → Option (List UInt8)) (cnt i length : Nat) :
    (fileLoop buflen reads cnt i length).length ≤ cnt := by
  induction cnt generalizing i length with
  | zero => exact Nat.le_refl 0
  | succ cnt ih =>
    rw [fileLoop]
    split
    · exact Nat.zero_le _
    · exact Nat.succ_le_succ (ih _ _)

include hbuf in
theorem fileLoop_succ (cnt i length : Nat) :
    fileLoop buflen (chunkReads buflen F p) (cnt + 1) i length =
      if length = 0 ∨ p + i * chunkMaxSize + min length chunkMaxSize ≤ F.length then
        tagged ((F.drop (p + i * chunkMaxSize)).take (min length chunkMaxSize)) (min length chunkMaxSize) ::
          fileLoop buflen (chunkReads buflen F p) cnt (i + 1)
            (if chunkMaxSize < length then length - chunkMaxSize else length)
      else [] := by
  have hchunk : mdOneChunk buflen (chunkReads buflen F p i) (min length chunkMaxSize) = _ :=
    mdOneChunk_file hbuf F (p + i * chunkMaxSize) (min length chunkMaxSize)
  have hpos : 0 < chunkMaxSize := by decide
  have hzero : min length chunkMaxSize = 0 ↔ length = 0 := by omega
  simp only [hzero] at hchunk
  rw [fileLoop, hchunk]
  split_ifs <;> rfl

include hbuf in
theorem length_fileLoop_of_le {cnt i length : Nat} (hcnt : cnt * chunkMaxSize < length + chunkMaxSize)
    (hfile : p + i * chunkMaxSize + length ≤ F.length) :
    (fileLoop buflen (chunkReads buflen F p) cnt i length).length = cnt := by
  induction cnt generalizing i length with
  | zero => rfl
  | succ cnt ih =>
    rw [Nat.succ_mul] at hcnt
    rw [fileLoop_succ hbuf, if_pos (by omega), length_cons]
    split_ifs with hlast
    · rw [ih (by omega) (by rw [Nat.succ_mul]; omega)]
    · have hzero : cnt = 0 := by rw [chunkMaxSize] at hcnt hlast; omega
      rw [hzero, fileLoop, length_nil]

include hbuf in
theorem fileLoop_bytes {cnt i length : Nat} (hlo : cnt * chunkMaxSize < length + chunkMaxSize)
    (hhi : length ≤ cnt * chunkMaxSize) (hall : (fileLoop buflen (chunkReads buflen F p) cnt i length).length = cnt) :
    ((fileLoop buflen (chunkReads buflen F p) cnt i length).map (drop 5)).flatten =
      (F.drop (p + i * chunkMaxSize)).take length := by
  induction cnt generalizing i length with
  | zero =>
    have : length = 0 := by omega
    rw [this]
    rfl
  | succ cnt ih =>
    rw [Nat.succ_mul] at hlo hhi
    rw [fileLoop_succ hbuf] at hall ⊢
    by_cases hread : length = 0 ∨ p + i * chunkMaxSize + min length chunkMaxSize ≤ F.length
    swap
    · rw [if_neg hread] at hall
      exact absurd hall (by simp)
    rw [if_pos hread, length_cons, Nat.succ_inj] at hall
    rw [if_pos hread, map_cons, flatten_cons, drop_tagged]
    by_cases hlast : chunkMaxSize < length
    · rw [if_pos hlast] at hall ⊢
      rw [ih (by omega) (by omega) hall, min_eq_right (Nat.le_of_lt hlast), Nat.succ_mul, ← add_assoc,
        take_drop_append, Nat.add_sub_of_le (Nat.le_of_lt hlast)]
    · have hzero : cnt = 0 := by rw [chunkMaxSize] at hlo hlast; omega
      rw [hzero, fileLoop, map_nil, flatten_nil, append_nil, min_eq_left (Nat.not_lt.mp hlast)]

end FileLoop

theorem calcChunkCount_bounds (h : length ≤ 2 ^ 32 - chunkMaxSize) :
    calcChunkCount length * chunkMaxSize < length + chunkMaxSize ∧ length ≤ calcChunkCount length * chunkMaxSize := by
  simp only [calcChunkCount, chunkMaxSize] at h ⊢
  omega

def blocks (commentLen : Nat) (F : List UInt8) : AppBlock :=
  appBlock commentLen (cdOffset commentLen F) (blockLength commentLen F) (eocdStart commentLen F)

structure Passes (L : Library) (buflen commentLen : Nat) (digest F : List UInt8) : Prop where
  size : F.length < 2 ^ 31
  /-- The offset from the end that is sought is in the file. -/
  record : commentLen + 22 ≤ F.length
  length : digest.length = 32
  verified : ∃ b, parseAppBlock (.ofFile buflen commentLen F) commentLen = some b ∧
    (verifyDigest L buflen (.ofFile buflen commentLen F) b digest).1 = 0

variable {L : Library} {buflen n : Nat} {digest F F' : List UInt8}

theorem got_take : got m (some (bytes.take m)) = bytes.take m := by
  rw [got, Option.getD_some, take_take, min_self]

theorem count_take : count m (some (bytes.take m)) = (min m bytes.length : Nat) := by
  rw [count, take_take, min_self, length_take]

theorem parse_ofFile {b : AppBlock} (hsize : F.length < 2 ^ 31) (h : parseAppBlock (.ofFile buflen n F) n = some b) :
    b = blocks n F ∧ 24 ≤ cdOffset n F ∧ cdOffset n F ≤ F.length := by
  have hoffset : cdOffset n F < 2 ^ 32 := field_lt F _ 4
  have hread₄ : le (got 4 (Calls.ofFile buflen n F).readOffset) = cdOffset n F := by
    rw [cdOffset, field, ofFile_readOffset, got_take]
  have hread₈ : le (got 8 (Calls.ofFile buflen n F).readLength) = blockLength n F := by
    rw [blockLength, field, ofFile_readLength, got_take]
  unfold parseAppBlock at h
  split_ifs at h with _ _ h₄ h₁₆ hmagic h₈
  rw [hread₄, hread₈] at h
  rw [not_not, ofFile_readMagic, count_take, length_drop] at h₁₆
  rw [not_not, ofFile_readLength, count_take, length_drop] at h₈
  refine ⟨(Option.some.inj h).symm, by omega, by omega⟩

theorem eocdStart_le (n : Nat) (F : List UInt8) : eocdStart n F ≤ F.length := by rw [eocdStart]; omega

section

variable (hrecord : n + 22 ≤ F.length) (hsize : F.length < 2 ^ 31)

include hrecord hsize

theorem eocd_length : (blocks n F).eocdBlock.length = n + 22 :=
  Nat.mod_eq_of_lt (by omega)

theorem verifyDigest_ofFile :
    (verifyDigest L buflen (.ofFile buflen n F) (blocks n F) digest).1 =
      memcmp digest (packageDigest L buflen (.ofFile buflen n F) (blocks n F)) := by
  have hdata : (blocks n F).eocdBlock.data = eocdStart n F := rfl
  have hle := eocdStart_le n F
  have hsought : toInt (eocdStart n F) = eocdStart n F := by rw [toInt, Int.bmod_def]; omega
  have hread : toInt (count (n + 22) (Calls.ofFile buflen n F).readEocd) = (n + 22 : Nat) := by
    rw [ofFile_readEocd, count_take, length_drop, eocdStart, toInt, Int.bmod_def]
    omega
  have hlength : ((((n + 22 : Nat) : Int) % 2 ^ 32).toNat ≠ n + 22) = False := by
    rw [eq_iff_iff, iff_false, not_not]
    omega
  have hopen : ((3 : Int) < 0) = False := by decide
  simp only [verifyDigest, ofFile_openDigest, ofFile_mallocBuffer, ofFile_realloc, ofFile_seekEocd, hdata,
    eocd_length hrecord hsize, hsought, hread, hlength, hopen, Bool.not_true, Bool.false_eq_true, if_true, if_false,
    ne_eq, not_true_eq_false]

end

theorem Passes.digest_eq (h : Passes L buflen n digest F) :
    digest = packageDigest L buflen (.ofFile buflen n F) (blocks n F) := by
  obtain ⟨b, hb, hres⟩ := h.verified
  rw [(parse_ofFile h.size hb).1, verifyDigest_ofFile h.record h.size] at hres
  exact (memcmp_eq_zero (by rw [h.length, packageDigest, L.length_sha256])).mp hres

/-! ## Where the sections are read as a whole -/

section

variable (n : Nat) (F : List UInt8)

def dataLength : Nat := (blocks n F).dataBlock.length

def directoryLength : Nat := (blocks n F).centralDirectoryBlock.length

/-- The end record without the offset of the central directory. -/
def endRecord : List UInt8 :=
  (F.drop (eocdStart n F)).take 16 ++ F.drop (eocdStart n F + 20)

structure Covered (n : Nat) (F F' : List UInt8) : Prop where
  data : F.take (dataLength n F) = F'.take (dataLength n F')
  directory : (F.take (eocdStart n F)).drop (cdOffset n F) = (F'.take (eocdStart n F')).drop (cdOffset n F')
  record : endRecord n F = endRecord n F'

def Inside : Prop :=
  dataLength n F ≤ F.length ∧ cdOffset n F < eocdStart n F + chunkMaxSize

end

section

variable (buflen n : Nat) (F : List UInt8)

def dataPieces : List (List UInt8) :=
  mdFileBlock buflen (chunkReads buflen F 0) (dataLength n F)

def directoryPieces : List (List UInt8) :=
  mdFileBlock buflen (chunkReads buflen F (cdOffset n F)) (directoryLength n F)

end

def recordPiece (n : Nat) (F : List UInt8) : List UInt8 :=
  tagged (splice (F.drop (eocdStart n F)) 16 (leBytes 4 (dataLength n F))) (n + 22)

theorem pieces_ofFile (hrecord : n + 22 ≤ F.length) (hsize : F.length < 2 ^ 31) :
    pieces buflen (.ofFile buflen n F) (blocks n F) =
      dataPieces buflen n F ++ directoryPieces buflen n F ++ [recordPiece n F] := by
  have hdrop : (F.drop (eocdStart n F)).take (n + 22) = F.drop (eocdStart n F) := by
    refine take_of_length_le ?_
    rw [length_drop, eocdStart]
    omega
  simp only [pieces, eocdBuffer, eocd_length hrecord hsize, ofFile_readEocd, ofFile_readChunk, sectionStart, hdrop]
  rfl

section

variable (buflen n : Nat) (F : List UInt8)

theorem length_dataPieces_le : (dataPieces buflen n F).length ≤ calcChunkCount (dataLength n F) :=
  length_fileLoop_le _ _ _ _

theorem length_directoryPieces_le : (directoryPieces buflen n F).length ≤ calcChunkCount (directoryLength n F) :=
  length_fileLoop_le _ _ _ _

end

theorem length_dataPieces (hbuf : 0 < buflen) (hsize : F.length < 2 ^ 31) (hin : dataLength n F ≤ F.length) :
    (dataPieces buflen n F).length = calcChunkCount (dataLength n F) := by
  have hcount := calcChunkCount_bounds (dataLength n F) (by rw [chunkMaxSize]; omega)
  exact length_fileLoop_of_le hbuf F 0 hcount.1 (by omega)

theorem dataPieces_bytes (hbuf : 0 < buflen) (hlen : dataLength n F < 2 ^ 31)
    (hall : (dataPieces buflen n F).length = calcChunkCount (dataLength n F)) :
    ((dataPieces buflen n F).map (drop 5)).flatten = F.take (dataLength n F) := by
  have hcount := calcChunkCount_bounds (dataLength n F) (by rw [chunkMaxSize]; omega)
  have h := fileLoop_bytes hbuf F 0 hcount.1 hcount.2 hall
  rwa [Nat.zero_mul, add_zero, drop_zero] at h

section

variable (hsize : F.length < 2 ^ 31) (hoffset : cdOffset n F ≤ F.length)

include hsize hoffset

theorem directoryLength_eq :
    directoryLength n F =
      if cdOffset n F ≤ eocdStart n F then eocdStart n F - cdOffset n F
      else 2 ^ 32 - (cdOffset n F - eocdStart n F) := by
  have hlength : directoryLength n F = (((eocdStart n F : Int) - cdOffset n F) % 2 ^ 32).toNat := rfl
  have hstart := eocdStart_le n F
  split_ifs <;> omega

theorem calcChunkCount_directory
    (hbehind : eocdStart n F < cdOffset n F) :
    (cdOffset n F < eocdStart n F + chunkMaxSize → calcChunkCount (directoryLength n F) = 0) ∧
      (¬ cdOffset n F < eocdStart n F + chunkMaxSize → 2048 < calcChunkCount (directoryLength n F)) := by
  rw [directoryLength_eq hsize hoffset, if_neg (by omega)]
  simp only [calcChunkCount, chunkMaxSize]
  omega

end

section

variable (hbuf : 0 < buflen) (hsize : F.length < 2 ^ 31) (hoffset : cdOffset n F ≤ F.length)

include hbuf hsize hoffset

theorem length_directoryPieces (hin : cdOffset n F < eocdStart n F + chunkMaxSize) :
    (directoryPieces buflen n F).length = calcChunkCount (directoryLength n F) ∧
      calcChunkCount (directoryLength n F) ≤ 2048 := by
  have hlength := directoryLength_eq hsize hoffset
  have hstart := eocdStart_le n F
  by_cases hle : cdOffset n F ≤ eocdStart n F
  · rw [if_pos hle] at hlength
    have hcount := calcChunkCount_bounds (directoryLength n F) (by rw [chunkMaxSize]; omega)
    exact ⟨length_fileLoop_of_le hbuf F _ hcount.1 (by omega), by simp only [calcChunkCount, chunkMaxSize]; omega⟩
  · have hzero := (calcChunkCount_directory hsize hoffset (by omega)).1 hin
    have := length_directoryPieces_le buflen n F
    omega

theorem directoryPieces_bytes (hcount : calcChunkCount (directoryLength n F) ≤ 2048)
    (hall : (directoryPieces buflen n F).length = calcChunkCount (directoryLength n F)) :
    ((directoryPieces buflen n F).map (drop 5)).flatten = (F.take (eocdStart n F)).drop (cdOffset n F) := by
  have hlength := directoryLength_eq hsize hoffset
  have hstart := eocdStart_le n F
  by_cases hle : cdOffset n F ≤ eocdStart n F
  · rw [if_pos hle] at hlength
    have hbounds := calcChunkCount_bounds (directoryLength n F) (by rw [chunkMaxSize]; omega)
    have h : _ = (F.drop (cdOffset n F + 0 * chunkMaxSize)).take (directoryLength n F) :=
      fileLoop_bytes hbuf F (cdOffset n F) hbounds.1 hbounds.2 hall
    rw [drop_take, ← hlength]
    exact h
  · have hdirectory := calcChunkCount_directory hsize hoffset (by omega)
    have hin : cdOffset n F < eocdStart n F + chunkMaxSize := by
      by_contra hin
      omega
    rw [hdirectory.1 hin] at hall
    rw [length_eq_zero_iff.mp hall, drop_eq_nil_of_le (by rw [length_take]; omega)]
    rfl

end

theorem leBytes_inj {w a c : Nat} (ha : a < 256 ^ w) (hc : c < 256 ^ w) (h : leBytes w a = leBytes w c) : a = c := by
  rw [← le_leBytes ha, ← le_leBytes hc, h]

theorem dataLength_lt (n : Nat) (F : List UInt8) : dataLength n F < 2 ^ 32 := Nat.mod_lt _ (by decide)

theorem recordPiece_inj (hrecord : n + 22 ≤ F.length) (hrecord' : n + 22 ≤ F'.length)
    (h : recordPiece n F = recordPiece n F') : dataLength n F = dataLength n F' ∧ endRecord n F = endRecord n F' := by
  have hsplice : ∀ G : List UInt8, n + 22 ≤ G.length →
      splice (G.drop (eocdStart n G)) 16 (leBytes 4 (dataLength n G)) =
        (G.drop (eocdStart n G)).take 16 ++ leBytes 4 (dataLength n G) ++ G.drop (eocdStart n G + 20) := by
    intro G hG
    have hlen : 16 + (leBytes 4 (dataLength n G)).length ≤ (G.drop (eocdStart n G)).length := by
      rw [length_leBytes, length_drop, eocdStart]
      omega
    rw [splice_eq_append 16 hlen, length_leBytes, drop_drop]
  have hfront : ∀ G : List UInt8, n + 22 ≤ G.length → ((G.drop (eocdStart n G)).take 16).length = 16 := by
    intro G hG
    rw [length_take, length_drop, eocdStart]
    omega
  have hbytes := congrArg (List.drop 5) h
  rw [recordPiece, recordPiece, drop_tagged, drop_tagged, hsplice F hrecord, hsplice F' hrecord', append_assoc,
    append_assoc] at hbytes
  obtain ⟨hhead, htail⟩ := append_inj hbytes (by rw [hfront F hrecord, hfront F' hrecord'])
  obtain ⟨hlength, hend⟩ := append_inj htail (by rw [length_leBytes, length_leBytes])
  refine ⟨leBytes_inj (dataLength_lt n F) (dataLength_lt n F') hlength, ?_⟩
  rw [endRecord, endRecord, hhead, hend]

def hashed (L : Library) (buflen n : Nat) (F : List UInt8) : List (List UInt8) :=
  summary L buflen (.ofFile buflen n F) (blocks n F) :: pieces buflen (.ofFile buflen n F) (blocks n F)

theorem summary_inj (hsize : F.length < 2 ^ 31) (hsize' : F'.length < 2 ^ 31) (hrecord : n + 22 ≤ F.length)
    (hrecord' : n + 22 ≤ F'.length)
    (h : summary L buflen (.ofFile buflen n F) (blocks n F) = summary L buflen (.ofFile buflen n F') (blocks n F')) :
    calcChunkCount (dataLength n F) + calcChunkCount (directoryLength n F) =
        calcChunkCount (dataLength n F') + calcChunkCount (directoryLength n F') ∧
      (pieces buflen (.ofFile buflen n F) (blocks n F)).flatMap L.sha256 =
        (pieces buflen (.ofFile buflen n F') (blocks n F')).flatMap L.sha256 := by
  have hcount : ∀ length, calcChunkCount length ≤ 4096 := by
    intro length
    simp only [calcChunkCount, chunkMaxSize]
    omega
  obtain ⟨hnumber, hflat⟩ := append_inj (cons.inj h).2 (by rw [length_leBytes, length_leBytes])
  refine ⟨?_, hflat⟩
  have hd := hcount (dataLength n F)
  have hd' := hcount (dataLength n F')
  have hc := hcount (directoryLength n F)
  have hc' := hcount (directoryLength n F')
  have he := hcount (n + 22)
  rw [eocd_length hrecord hsize, eocd_length hrecord' hsize'] at hnumber
  simp only [dataLength, directoryLength] at hd hd' hc hc' ⊢
  have := leBytes_inj (by omega) (by omega) hnumber
  omega

theorem covered_or_collision (hbuf : 0 < buflen) (hF : Passes L buflen n digest F) (hF' : Passes L buflen n digest F')
    (hin : Inside n F) : Covered n F F' ∨ Collision L.sha256 (hashed L buflen n F ++ hashed L buflen n F') := by
  obtain ⟨b, hb, -⟩ := hF.verified
  obtain ⟨b', hb', -⟩ := hF'.verified
  have hoffset := (parse_ofFile hF.size hb).2.2
  have hoffset' := (parse_ofFile hF'.size hb').2.2
  have hsha : L.sha256 (summary L buflen (.ofFile buflen n F) (blocks n F)) =
      L.sha256 (summary L buflen (.ofFile buflen n F') (blocks n F')) := by
    rw [← packageDigest, ← packageDigest, ← hF.digest_eq, ← hF'.digest_eq]
  rcases eq_or_collision hsha (pieces buflen (.ofFile buflen n F) (blocks n F))
    (pieces buflen (.ofFile buflen n F') (blocks n F')) with hsummary | hc
  swap
  · exact .inr hc
  obtain ⟨hcount, hflat⟩ := summary_inj hF.size hF'.size hF.record hF'.record hsummary
  rcases eq_or_collision_of_flatMap (by decide) L.length_sha256 hflat with hpieces | hc
  swap
  · exact .inr (hc.cons_append_cons _ _)
  left
  rw [pieces_ofFile hF.record hF.size, pieces_ofFile hF'.record hF'.size] at hpieces
  obtain ⟨hsections, hlast⟩ := append_inj' hpieces (by rw [length_singleton, length_singleton])
  obtain ⟨hdata, hrecord⟩ := recordPiece_inj hF.record hF'.record (cons.inj hlast).1
  -- the numbers of chunks leave no room for a chunk that was not read
  have hall := length_dataPieces hbuf hF.size hin.1
  obtain ⟨hall₂, hle⟩ := length_directoryPieces hbuf hF.size hoffset hin.2
  have hmost := length_dataPieces_le buflen n F'
  have hmost₂ := length_directoryPieces_le buflen n F'
  have hsum := congrArg List.length hsections
  rw [length_append, length_append] at hsum
  have hdataCount : calcChunkCount (dataLength n F') = calcChunkCount (dataLength n F) := by rw [hdata]
  have hall' : (dataPieces buflen n F').length = calcChunkCount (dataLength n F') := by omega
  have hall₂' : (directoryPieces buflen n F').length = calcChunkCount (directoryLength n F') := by omega
  obtain ⟨hD, hE⟩ := append_inj hsections (by omega)
  have hlt : dataLength n F < 2 ^ 31 := Nat.lt_of_le_of_lt hin.1 hF.size
  refine ⟨?_, ?_, hrecord⟩
  · rw [← dataPieces_bytes hbuf hlt hall, ← dataPieces_bytes hbuf (by rwa [← hdata]) hall', hD]
  · rw [← directoryPieces_bytes hbuf hF.size hoffset hle hall₂,
      ← directoryPieces_bytes hbuf hF'.size hoffset' (by omega) hall₂', hE]

/-! ## Data that end behind the package -/

/-- The bytes that are hashed of data that end behind the package. -/
def hashedData (n : Nat) (F : List UInt8) : Nat :=
  if calcChunkCount (dataLength n F) = 0 then 0 else F.length / chunkMaxSize * chunkMaxSize

theorem fileLoop_set (hbuf : 0 < buflen) {j : Nat} (x : UInt8) (hj : F.length / chunkMaxSize * chunkMaxSize ≤ j)
    (cnt : Nat) {i length : Nat} (hpos : 0 < length) (hout : F.length < i * chunkMaxSize + length) :
    fileLoop buflen (chunkReads buflen (F.set j x) 0) cnt i length =
      fileLoop buflen (chunkReads buflen F 0) cnt i length := by
  induction cnt generalizing i length with
  | zero => rw [fileLoop, fileLoop]
  | succ cnt ih =>
    rw [fileLoop_succ hbuf, fileLoop_succ hbuf, length_set]
    by_cases hread : length = 0 ∨ 0 + i * chunkMaxSize + min length chunkMaxSize ≤ F.length
    swap
    · rw [if_neg hread, if_neg hread]
    have hlast : chunkMaxSize < length := by omega
    have hend : (i + 1) * chunkMaxSize ≤ F.length := by rw [Nat.succ_mul]; omega
    have hbelow : (i + 1) * chunkMaxSize ≤ F.length / chunkMaxSize * chunkMaxSize :=
      Nat.mul_le_mul_right _ ((Nat.le_div_iff_mul_le (by decide)).mpr hend)
    have hchunk : ((F.set j x).drop (0 + i * chunkMaxSize)).take chunkMaxSize =
        (F.drop (0 + i * chunkMaxSize)).take chunkMaxSize := by
      rw [Nat.succ_mul] at hbelow
      rw [drop_set, if_neg (by omega), take_set_of_le (by omega)]
    rw [if_pos hread, if_pos hread, if_pos hlast, Nat.min_eq_right (Nat.le_of_lt hlast), hchunk,
      ih (by omega) (by rw [Nat.succ_mul]; omega)]

section Set

variable {j : Nat} (x : UInt8) (hsize : F.length < 2 ^ 31) (hoffset : cdOffset n F ≤ F.length)
  (hj : j + 24 < cdOffset n F) (hj' : j < eocdStart n F)

include hj' in
theorem cdOffset_set : cdOffset n (F.set j x) = cdOffset n F := by
  rw [eocdStart] at hj'
  rw [cdOffset, cdOffset, field, field, length_set, drop_set, if_pos (by omega)]

theorem eocdStart_set : eocdStart n (F.set j x) = eocdStart n F := by rw [eocdStart, eocdStart, length_set]

include hsize hoffset hj hj'

theorem blockLength_set : blockLength n (F.set j x) = blockLength n F := by
  rw [blockLength, blockLength, field, field, cdOffset_set x hj', drop_set, if_pos (by omega)]

theorem blocks_set : blocks n (F.set j x) = blocks n F := by
  rw [blocks, blocks, cdOffset_set x hj', blockLength_set x hsize hoffset hj hj', eocdStart_set]

theorem parseAppBlock_set (buflen : Nat) :
    parseAppBlock (.ofFile buflen n (F.set j x)) n = parseAppBlock (.ofFile buflen n F) n := by
  apply parseAppBlock_congr
  · rw [ofFile_mallocAppBlock, ofFile_mallocAppBlock]
  · rw [ofFile_openApp, ofFile_openApp]
  · rw [eocdStart] at hj'
    rw [ofFile_readOffset, ofFile_readOffset, length_set, drop_set, if_pos (by omega)]
  · rw [ofFile_readMagic, ofFile_readMagic, cdOffset_set x hj', drop_set, if_pos (by omega)]
  · rw [ofFile_readLength, ofFile_readLength, cdOffset_set x hj', drop_set, if_pos (by omega)]
  · rw [ofFile_tellEocd, ofFile_tellEocd, eocdStart_set]

theorem pieces_set (hbuf : 0 < buflen) (hrecord : n + 22 ≤ F.length) (hout : F.length < dataLength n F)
    (hhashed : hashedData n F ≤ j) :
    pieces buflen (.ofFile buflen n (F.set j x)) (blocks n (F.set j x)) =
      pieces buflen (.ofFile buflen n F) (blocks n F) := by
  have hblocks := blocks_set x hsize hoffset hj hj'
  have hlength : dataLength n (F.set j x) = dataLength n F := by rw [dataLength, dataLength, hblocks]
  have hdata : dataPieces buflen n (F.set j x) = dataPieces buflen n F := by
    rw [dataPieces, dataPieces, hlength, mdFileBlock, mdFileBlock]
    rw [hashedData] at hhashed
    by_cases hzero : calcChunkCount (dataLength n F) = 0
    · rw [hzero, fileLoop, fileLoop]
    · rw [if_neg hzero] at hhashed
      exact fileLoop_set hbuf x hhashed _ (by omega) (by omega)
  have hreads : chunkReads buflen (F.set j x) (cdOffset n F) = chunkReads buflen F (cdOffset n F) := by
    funext i k
    rw [chunkReads, chunkReads, drop_set, if_pos (by omega)]
  have hdirectory : directoryPieces buflen n (F.set j x) = directoryPieces buflen n F := by
    rw [directoryPieces, directoryPieces, directoryLength, directoryLength, hblocks, cdOffset_set x hj', hreads]
  have hpiece : recordPiece n (F.set j x) = recordPiece n F := by
    rw [recordPiece, recordPiece, hlength, eocdStart_set, drop_set, if_pos hj']
  have hrecord' : n + 22 ≤ (F.set j x).length := by rwa [length_set]
  have hsize' : (F.set j x).length < 2 ^ 31 := by rw [length_set]; exact hsize
  rw [pieces_ofFile hrecord' hsize', pieces_ofFile hrecord hsize, hdata, hdirectory, hpiece]

theorem hashed_set (L : Library) (hbuf : 0 < buflen) (hrecord : n + 22 ≤ F.length) (hout : F.length < dataLength n F)
    (hhashed : hashedData n F ≤ j) : hashed L buflen n (F.set j x) = hashed L buflen n F := by
  have hpieces := pieces_set x hsize hoffset hj hj' hbuf hrecord hout hhashed
  have hsummary : summary L buflen (.ofFile buflen n (F.set j x)) (blocks n (F.set j x)) =
      summary L buflen (.ofFile buflen n F) (blocks n F) := by
    simp only [summary, hpieces]
    simp only [blocks_set x hsize hoffset hj hj']
  rw [hashed, hashed, hpieces, hsummary]

end Set

theorem passes_set (hbuf : 0 < buflen) (hF : Passes L buflen n digest F) (hout : F.length < dataLength n F) {j : Nat}
    (hhashed : hashedData n F ≤ j) (hj : j + 24 < cdOffset n F) (hj' : j < eocdStart n F) (x : UInt8) :
    Passes L buflen n digest (F.set j x) := by
  obtain ⟨b, hb, hres⟩ := hF.verified
  obtain ⟨rfl, -, hoffset⟩ := parse_ofFile hF.size hb
  have hdigest := hF.digest_eq
  have hsize : (F.set j x).length < 2 ^ 31 := by rw [length_set]; exact hF.size
  have hrecord : n + 22 ≤ (F.set j x).length := by rw [length_set]; exact hF.record
  refine ⟨hsize, hrecord, hF.length, blocks n F, ?_, ?_⟩
  · rw [parseAppBlock_set x hF.size hoffset hj hj', hb]
  · have hsame := hashed_set x hF.size hoffset hj hj' L hbuf hF.record hout hhashed
    have hblocks := blocks_set x hF.size hoffset hj hj'
    rw [← hblocks, verifyDigest_ofFile hrecord hsize, packageDigest, (cons.inj hsame).1,
      ← packageDigest, ← hdigest]
    exact (memcmp_eq_zero rfl).mpr rfl

/-- Every package with the same digest is the same outside its signing block, or two of the strings hashed collide, if
the sections of the package are inside it. Where the data end behind it, any byte behind the chunks that are read and in
front of the length of the signing block can be changed. -/
theorem digest_covers_package (hbuf : 0 < buflen) (hF : Passes L buflen n digest F) :
    (Inside n F → ∀ F', Passes L buflen n digest F' →
        Covered n F F' ∨ Collision L.sha256 (hashed L buflen n F ++ hashed L buflen n F')) ∧
      (F.length < dataLength n F → ∀ j, hashedData n F ≤ j → j + 24 < cdOffset n F → j < eocdStart n F →
        ∀ x, F[j]? ≠ some x →
          Passes L buflen n digest (F.set j x) ∧ ¬ Covered n F (F.set j x) ∧
            hashed L buflen n (F.set j x) = hashed L buflen n F) := by
  obtain ⟨b, hb, -⟩ := hF.verified
  obtain ⟨-, -, hoffset⟩ := parse_ofFile hF.size hb
  refine ⟨fun hin F' hF' => covered_or_collision hbuf hF hF' hin, fun hout j hhashed hj hj' x hx => ?_⟩
  refine ⟨passes_set hbuf hF hout hhashed hj hj' x, fun hcovered => ?_,
    hashed_set x hF.size hoffset hj hj' L hbuf hF.record hout hhashed⟩
  have hdata := hcovered.data
  have hlength : dataLength n (F.set j x) = dataLength n F := by
    rw [dataLength, dataLength, blocks_set x hF.size hoffset hj hj']
  rw [hlength, take_of_length_le (by omega), take_of_length_le (by rw [length_set]; omega)] at hdata
  have hlt : j < F.length := by rw [eocdStart] at hj'; omega
  apply hx
  rw [hdata, getElem?_set_self hlt]

def truncating : Library := ⟨fun s => (s ++ replicate 32 0).take 32, fun s => by simp, true, fun _ _ _ => false⟩

def signedPackage (entries : List UInt8) : List UInt8 :=
  let length := leBytes 8 (entries.length + 24)
  replicate 8 1 ++ length ++ entries ++ length ++ magic ++ [2, 2] ++ replicate 16 0 ++
    leBytes 4 (entries.length + 40) ++ [0, 0]

def digestOf (F : List UInt8) : List UInt8 := packageDigest truncating 32768 (.ofFile 32768 0 F) (blocks 0 F)

theorem signedPackage_covered :
    Covered 0 (signedPackage []) (signedPackage [7, 7]) ∨
      Collision truncating.sha256
        (hashed truncating 32768 0 (signedPackage []) ++ hashed truncating 32768 0 (signedPackage [7, 7])) :=
  have hpasses : Passes truncating 32768 0 (digestOf (signedPackage [])) (signedPackage []) :=
    ⟨by decide +kernel, by decide +kernel, by decide +kernel, blocks 0 (signedPackage []), rfl, by decide +kernel⟩
  (digest_covers_package (by decide) hpasses).1 ⟨by decide +kernel, by decide +kernel⟩ (signedPackage [7, 7])
    ⟨by decide +kernel, by decide +kernel, by decide +kernel, blocks 0 (signedPackage [7, 7]), rfl, by decide +kernel⟩

/-- The length of what is in front of the signing block wraps around: the first byte is not hashed. -/
theorem unhashed_data_passes :
    let F := samplePackage
    let F' := F.set 0 1
    Passes truncating 32768 0 (digestOf F) F ∧ Passes truncating 32768 0 (digestOf F) F' ∧ ¬ Covered 0 F F' ∧
      ¬ Collision truncating.sha256 (hashed truncating 32768 0 F ++ hashed truncating 32768 0 F') := by
  refine ⟨⟨by decide +kernel, by decide +kernel, by decide +kernel, blocks 0 samplePackage, rfl, by decide +kernel⟩,
    ⟨by decide +kernel, by decide +kernel, by decide +kernel, blocks 0 (samplePackage.set 0 1), rfl, by decide +kernel⟩,
    fun h => absurd h.data (by decide +kernel), ?_⟩
  unfold Collision
  decide +kernel

end NuttxApps.ZipVerify
