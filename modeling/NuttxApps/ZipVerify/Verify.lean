import NuttxApps.ZipVerify.Package

/-!
# When `verify_app` returns 0

One variable holds the result of every call in turn, and each check that fails leaves the function with the value it has
then. `verifyApp_fails_closed_iff` says when this is never the 0 of an earlier success. Otherwise `verify_app` returns 0
and has not compared the digest, or not even checked the signature (`unopened_key_verifies`).
-/

namespace NuttxApps.ZipVerify

open Bytes

def parseBlock (memory : Nat → UInt8) (data : Nat) : Block × Nat :=
  let length := le (bytesAt memory data 4)
  (⟨data + 4, length⟩, data + 4 + length)

structure SignatureInfo where
  signedData : Block
  digestsAlgorithmId : Nat
  oneDigest : Block
  signaturesAlgorithmId : Nat
  signaturesContent : Block

def getSignatureInfo (memory : Nat → UInt8) (data : Nat) : SignatureInfo :=
  let oneSignBlock := data + 4
  let (signedData, offset) := parseBlock memory oneSignBlock
  let signatures := offset + 4
  let digests := oneSignBlock + 4 + 4
  let content := signatures + 4
  { signedData
    digestsAlgorithmId := le (bytesAt memory (digests + 4) 4)
    oneDigest := (parseBlock memory (digests + 8)).1
    signaturesAlgorithmId := le (bytesAt memory content 4)
    signaturesContent := (parseBlock memory (content + 4)).1 }

variable (L : Library) (o : Calls) (b : AppBlock)

def signatureMemory (i : Nat) : UInt8 :=
  (got b.signatureBlock.length o.readSignature).getD i (o.memory i)

/-- The parts of the signing block: behind the length and id of `parse_kv_block` and the length of the sequence. -/
def signatureInfo : SignatureInfo :=
  getSignatureInfo (signatureMemory o b) (12 + 4)

def contents (block : Block) : List UInt8 :=
  bytesAt (signatureMemory o b) block.data.toNat block.length

def storedDigest : List UInt8 :=
  bytesAt (signatureMemory o b) (signatureInfo o b).oneDigest.data.toNat 32

def avbkey : List UInt8 :=
  match o.readKey with
  | none => bytesAt o.keyMemory 0 (2 ^ 32 - 1)
  | some bytes => let key := bytes.take o.sizeCert; key.take (key.length % 2 ^ 32)

def verifySignature (pubkey rawData signature : List UInt8) : Int :=
  if !L.algorithm then -1
  else if L.rsaVerify pubkey signature (L.sha256 rawData) then 0 else 1

/-- What `verify_app` returns, with the accepted key and data, and the digests that were compared. -/
structure Verdict where
  res : Int
  accepted : Option (List UInt8 × List UInt8)
  compared : Option (List UInt8 × List UInt8)

def verifyApp (buflen : Nat) (o : Calls) (commentLen : Nat) : Verdict :=
  match parseAppBlock o commentLen with
  | none => ⟨-1, none, none⟩
  | some b =>
    if !o.mallocSignature then ⟨-1, none, none⟩
    else if o.openSignature ≤ 0 then ⟨-1, none, none⟩
    else
      let info := signatureInfo o b
      if info.digestsAlgorithmId ≠ info.signaturesAlgorithmId then ⟨-1, none, none⟩
      else if o.statCert ≠ 0 then ⟨o.statCert, none, none⟩
      else if o.openCert ≤ 0 then ⟨0, none, none⟩
      else
        let rawData := contents o b info.signedData
        let res := verifySignature L (avbkey o) rawData (contents o b info.signaturesContent)
        if res ≠ 0 then ⟨res, none, none⟩
        else
          let (res, compared) := verifyDigest L buflen o b (storedDigest o b)
          ⟨res, some (avbkey o, rawData), compared⟩

/-- A package that passes is signed by the key, and its digest is the one in its signing block. The key is the buffer
that is passed on, also where reading it has failed. -/
def FailsClosed (buflen : Nat) (o : Calls) (commentLen : Nat) : Prop :=
  let v := verifyApp L buflen o commentLen
  v.res = 0 → ∃ b, parseAppBlock o commentLen = some b ∧
    v.accepted = some (avbkey o, contents o b (signatureInfo o b).signedData) ∧
    v.compared = some (storedDigest o b, packageDigest L buflen o b) ∧ storedDigest o b = packageDigest L buflen o b

structure FindsKey (o : Calls) (b : AppBlock) : Prop where
  malloc : o.mallocSignature
  opened : 0 < o.openSignature
  algorithm : (signatureInfo o b).digestsAlgorithmId = (signatureInfo o b).signaturesAlgorithmId
  stat : o.statCert = 0

def Accepts : Prop :=
  verifySignature L (avbkey o) (contents o b (signatureInfo o b).signedData)
    (contents o b (signatureInfo o b).signaturesContent) = 0

/-- `verify_digest` finds 0 for the offset of the end record, or reads none of it, and expected more. -/
def StaleZero : Prop :=
  0 ≤ o.openDigest ∧ o.mallocBuffer ∧ o.realloc ∧
    (o.seekEocd ∧ b.eocdBlock.data ≠ 0 ∧ toInt b.eocdBlock.data = 0 ∨
      toInt (if o.seekEocd then b.eocdBlock.data else -1) = b.eocdBlock.data ∧
        o.readEocd = some [] ∧ b.eocdBlock.length ≠ 0)

variable {L : Library} {buflen : Nat} {o : Calls} {commentLen : Nat} {b : AppBlock}

theorem toInt_count {n : Nat} (hn : n < 2 ^ 32) {result : Option (List UInt8)}
    (h : toInt (count n result) = 0) : result = some [] ∨ n = 0 := by
  cases result with
  | none => simp [count, toInt] at h
  | some bytes =>
    have hlen : (bytes.take n).length ≤ n := List.length_take_le n bytes
    have hzero : (bytes.take n).length = 0 := by
      simp only [count, toInt, Int.bmod_def] at h
      omega
    rcases List.take_eq_nil_iff.mp (List.length_eq_zero_iff.mp hzero) with h | h
    · exact .inr h
    · exact .inl (by rw [h])

theorem verifyDigest_of_staleZero {digest : List UInt8} (h : StaleZero o b) :
    verifyDigest L buflen o b digest = (0, none) := by
  obtain ⟨hopen, hmalloc, hrealloc, ⟨hseek, hdata, hzero⟩ | ⟨hsought, hread, hlen⟩⟩ := h
  · simp [verifyDigest, Int.not_lt.mpr hopen, hmalloc, hrealloc, hseek, hzero, Ne.symm hdata]
  · have hcount : toInt (count b.eocdBlock.length (some [])) = 0 := by simp [count, toInt]
    simp [verifyDigest, Int.not_lt.mpr hopen, hmalloc, hrealloc, hsought, hread, hcount, Ne.symm hlen]

theorem verifyDigest_of_not_staleZero {digest : List UInt8} (hb : b.eocdBlock.length < 2 ^ 32)
    (hdigest : digest.length = 32) (h : ¬ StaleZero o b) (hres : (verifyDigest L buflen o b digest).1 = 0) :
    (verifyDigest L buflen o b digest).2 = some (digest, packageDigest L buflen o b) ∧
      digest = packageDigest L buflen o b := by
  rw [verifyDigest] at hres ⊢
  by_cases hopen : o.openDigest < 0
  · rw [if_pos hopen] at hres
    exact absurd hres (by decide)
  by_cases hmalloc : o.mallocBuffer
  swap
  · simp [hopen, hmalloc] at hres
  by_cases hrealloc : o.realloc
  swap
  · simp [hopen, hmalloc, hrealloc] at hres
  simp only [hopen, hmalloc, hrealloc, Bool.not_true, Bool.false_eq_true, if_false] at hres ⊢
  by_cases hsought : toInt (if o.seekEocd then b.eocdBlock.data else -1) = b.eocdBlock.data
  swap
  · -- the offset does not fit into the variable
    rw [if_pos hsought] at hres
    refine absurd ⟨Int.not_lt.mp hopen, hmalloc, hrealloc, .inl ?_⟩ h
    cases hseek : o.seekEocd with
    | false => simp [hseek, toInt] at hres
    | true =>
      simp only [hseek, if_true] at hres hsought
      exact ⟨rfl, fun hdata => hsought (hres.trans hdata.symm), hres⟩
  rw [if_neg (not_not.mpr hsought)] at hres ⊢
  by_cases hread : (toInt (count b.eocdBlock.length o.readEocd) % 2 ^ 32).toNat = b.eocdBlock.length
  swap
  · -- the end record is not read
    rw [if_pos hread] at hres
    dsimp only at hres
    refine absurd ⟨Int.not_lt.mp hopen, hmalloc, hrealloc, .inr ⟨hsought, ?_⟩⟩ h
    have hlen : b.eocdBlock.length ≠ 0 := fun hlen => hread (by rw [hres, hlen]; rfl)
    exact ⟨(toInt_count hb hres).resolve_right hlen, hlen⟩
  rw [if_neg (not_not.mpr hread)] at hres ⊢
  refine ⟨rfl, (memcmp_eq_zero ?_).mp hres⟩
  rw [hdigest, packageDigest, L.length_sha256]

theorem length_eocdBlock (h : parseAppBlock o commentLen = some b) : b.eocdBlock.length < 2 ^ 32 := by
  unfold parseAppBlock at h
  split_ifs at h
  cases h
  exact Nat.mod_lt _ (by decide)

theorem verifyApp_of_unopened (L : Library) (buflen : Nat) (hb : parseAppBlock o commentLen = some b)
    (h : FindsKey o b) (hkey : ¬ 0 < o.openCert) : verifyApp L buflen o commentLen = ⟨0, none, none⟩ := by
  simp [verifyApp, hb, h.malloc, Int.not_le.mpr h.opened, h.algorithm, h.stat, Int.not_lt.mp hkey]

theorem verifyApp_of_opened (buflen : Nat) (hb : parseAppBlock o commentLen = some b) (h : FindsKey o b)
    (hkey : 0 < o.openCert) (haccept : Accepts L o b) :
    verifyApp L buflen o commentLen =
      ⟨(verifyDigest L buflen o b (storedDigest o b)).1,
        some (avbkey o, contents o b (signatureInfo o b).signedData),
        (verifyDigest L buflen o b (storedDigest o b)).2⟩ := by
  rw [Accepts] at haccept
  simp [verifyApp, hb, h.malloc, Int.not_le.mpr h.opened, h.algorithm, h.stat, Int.not_le.mpr hkey, haccept]

theorem findsKey_of_res (hres : (verifyApp L buflen o commentLen).res = 0) :
    ∃ b, parseAppBlock o commentLen = some b ∧ FindsKey o b ∧ (0 < o.openCert → Accepts L o b) := by
  unfold verifyApp at hres
  cases hb : parseAppBlock o commentLen with
  | none => simp [hb] at hres
  | some b =>
    rw [hb] at hres
    refine ⟨b, rfl, ?_⟩
    dsimp only at hres
    split_ifs at hres with hmalloc hopen halg hstat hkey haccept
    · exact absurd hres (by decide)
    · exact absurd hres (by decide)
    · exact absurd hres (by decide)
    · exact absurd hres hstat
    · exact ⟨⟨by simpa using hmalloc, by omega, by simpa using halg, by simpa using hstat⟩, by omega⟩
    · exact absurd hres haccept
    · refine ⟨⟨by simpa using hmalloc, by omega, by simpa using halg, by simpa using hstat⟩, fun _ => ?_⟩
      exact not_not.mp haccept

/-- A package passes only with an accepted signature and an equal digest, exactly if the key can be opened once it is
found, and once the signature is accepted neither the offset of the end record nor the number of bytes read of it is a 0
that was not expected. -/
theorem verifyApp_fails_closed_iff (L : Library) (buflen : Nat) (o : Calls) (commentLen : Nat) :
    FailsClosed L buflen o commentLen ↔
      ∀ b, parseAppBlock o commentLen = some b → FindsKey o b →
        0 < o.openCert ∧ (Accepts L o b → ¬ StaleZero o b) := by
  constructor
  · intro h b hb hfinds
    have hkey : 0 < o.openCert := by
      by_contra hkey
      have hv := verifyApp_of_unopened L buflen hb hfinds hkey
      obtain ⟨_, _, haccepted, _⟩ := h (by rw [hv])
      rw [hv] at haccepted
      exact absurd haccepted (by simp)
    refine ⟨hkey, fun haccept hstale => ?_⟩
    have hv := verifyApp_of_opened buflen hb hfinds hkey haccept
    rw [verifyDigest_of_staleZero hstale] at hv
    obtain ⟨_, _, _, hcompared, _⟩ := h (by rw [hv])
    rw [hv] at hcompared
    exact absurd hcompared (by simp)
  · intro h hres
    obtain ⟨b, hb, hfinds, haccept⟩ := findsKey_of_res hres
    obtain ⟨hkey, hstale⟩ := h b hb hfinds
    have hv := verifyApp_of_opened buflen hb hfinds hkey (haccept hkey)
    rw [hv] at hres ⊢
    obtain ⟨hcompared, heq⟩ :=
      verifyDigest_of_not_staleZero (length_eocdBlock hb) (by simp [storedDigest, bytesAt]) (hstale (haccept hkey)) hres
    exact ⟨b, hb, rfl, hcompared, heq⟩

def rejecting : Library := ⟨fun _ => List.replicate 32 0, fun _ => rfl, true, fun _ _ _ => false⟩

/-- The key is found and cannot be opened: the package passes. -/
theorem unopened_key_verifies :
    let o := { Calls.ofFile 32768 0 samplePackage with openCert := -1 }
    (verifyApp rejecting 32768 o 0).res = 0 ∧ (verifyApp rejecting 32768 o 0).accepted = none := by
  decide

end NuttxApps.ZipVerify
