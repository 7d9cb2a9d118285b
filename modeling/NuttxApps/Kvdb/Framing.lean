import NuttxApps.Framework.Bytes

/-!
# Requests of the key-value database

A request is a letter, one or two lengths of one byte each, the key and the value. `kvdb_client` takes the first piece
of the stream as it comes, reads the lengths from it, and lets `kvdb_recv` collect what is missing (`kvdbRecv_agree`);
`decoded_iff` says which requests are performed.
-/

namespace NuttxApps.Kvdb

open Bytes List

structure Limits where
  (nameMax valueMax : Nat)

variable (lim : Limits)

def Limits.msgMax : Nat := 3 + lim.nameMax + lim.valueMax

/-- A call of `property_set_binary` or `property_delete`; the key is without its terminator. -/
inductive Request
  | set (key value : List UInt8)
  | delete (key : List UInt8)

def propertySetBinary (key value : List UInt8) : Option (List UInt8) :=
  if key.length + 1 > lim.nameMax then none
  else if value.length = 0 ∨ value.length ≥ lim.valueMax then none
  else some ([83, .ofNat (key.length + 1), .ofNat value.length] ++ (key ++ [0]) ++ value)

def propertyDelete (key : List UInt8) : Option (List UInt8) :=
  if key.length + 1 > lim.nameMax then none else some ([68, .ofNat (key.length + 1)] ++ (key ++ [0]))

def Request.send : Request → Option (List UInt8)
  | .set key value => propertySetBinary lim key value
  | .delete key => propertyDelete lim key

inductive Action
  | delete (key : List UInt8)
  | get (key : List UInt8) (valLen : Nat)
  | set (key value : List UInt8)
  | list
  | commit
  | load
  | monitor (key : List UInt8)
deriving DecidableEq

/-- `recv` of at most `n` bytes: the next piece of the stream, or the part asked for; `none` at its end. -/
def recv (n : Nat) : List (List UInt8) → Option (List UInt8 × List (List UInt8))
  | [] => none
  | c :: cs => if c.length ≤ n then some (c, cs) else some (c.take n, c.drop n :: cs)

/-- `kvdb_recv`: the buffer up to `len`, with `offset` bytes there already; `none` where the stream ends. -/
def kvdbRecv (buf : List UInt8) (offset len : Nat) : List (List UInt8) → Option (List UInt8)
  | [] => if offset < len then none else some buf
  | c :: cs =>
    if offset < len then
      if c = [] then none
      else if c.length ≤ len - offset then kvdbRecv (splice buf offset c) (offset + c.length) len cs
      -- the piece goes on, but `offset` has reached `len`
      else some (splice buf offset (c.take (len - offset)))
    else some buf

/-- The bytes of the message up to `endPos`, of which `len` are in `msg`, and what is done with them. -/
def complete (msg : List UInt8) (len endPos : Nat) (chunks : List (List UInt8))
    (act : List UInt8 → Option Action) : Option Action :=
  if endPos ≥ lim.msgMax then none else (kvdbRecv msg len endPos chunks).bind act

/-- The `switch` of `kvdb_client`; the lengths are read from the first piece. -/
def kvdbSwitch (dumplist : Bool) (msg : List UInt8) (len : Nat) (chunks : List (List UInt8)) : Option Action :=
  let keyLen := (msg.getD 1 0).toNat
  let valLen := (msg.getD 2 0).toNat
  if msg.getD 0 0 = 68 then
    complete lim msg len (keyLen + 2) chunks fun msg => some (.delete ((msg.drop 2).take keyLen))
  else if msg.getD 0 0 = 71 then
    complete lim msg len (keyLen + 3) chunks fun msg => some (.get ((msg.drop 3).take keyLen) valLen)
  else if msg.getD 0 0 = 83 then
    complete lim msg len (keyLen + valLen + 3) chunks fun msg =>
      some (.set ((msg.drop 3).take keyLen) ((msg.drop (3 + keyLen)).take valLen))
  else if msg.getD 0 0 = 76 ∧ dumplist then some .list
  else if msg.getD 0 0 = 67 then some .commit
  else if msg.getD 0 0 = 82 then some .load
  else if msg.getD 0 0 = 77 then
    complete lim msg len (keyLen + 2) chunks fun msg =>
      -- the key has to end with its terminator
      if msg.getD (keyLen + 1) 0 ≠ 0 then none else some (.monitor ((msg.drop 2).take keyLen))
  else none

/-- The buffer of `kvdb_client` behind its first `recv`; `junk` is what `malloc` returned. -/
def firstMsg (junk got : List UInt8) : List UInt8 := splice (splice junk 0 [0, 0, 0]) 0 got

def kvdbClient (dumplist : Bool) (junk : List UInt8) (chunks : List (List UInt8)) : Option Action :=
  match recv lim.msgMax chunks with
  | none => none
  | some (got, chunks) =>
    if got = [] then none else kvdbSwitch lim dumplist (firstMsg junk got) got.length chunks

theorem kvdbRecv_agree {buf stream : List UInt8} {chunks : List (List UInt8)} {offset len : Nat}
    (hbuf : Agree buf stream 0 offset) (hchunks : chunks.flatten = stream.drop offset)
    (hne : ∀ c ∈ chunks, c ≠ []) (hlen : len ≤ stream.length) (hcap : len ≤ buf.length) :
    ∃ buf', kvdbRecv buf offset len chunks = some buf' ∧ Agree buf' stream 0 len := by
  induction chunks generalizing buf offset with
  | nil =>
    have hoff : stream.length ≤ offset := drop_eq_nil_iff.mp hchunks.symm
    rw [kvdbRecv, if_neg (by omega)]
    exact ⟨buf, rfl, hbuf.mono (Nat.le_refl 0) (by omega)⟩
  | cons d ds ih =>
    rw [kvdbRecv]
    by_cases hoff : offset < len
    · obtain ⟨hd, hne⟩ := forall_mem_cons.mp hne
      rw [if_pos hoff, if_neg hd]
      rw [flatten_cons] at hchunks
      -- a piece is what the stream goes on with
      have hpiece : ∀ i, offset ≤ i → i < offset + d.length → d[i - offset]? = stream[i]? := by
        intro i h₁ h₂
        have := congrArg (·[i - offset]?) hchunks
        simpa [getElem?_append_left (show i - offset < d.length by omega), getElem?_drop,
          show offset + (i - offset) = i by omega] using this
      split
      · refine ih (fun i h₀ hi => ?_) ?_ hne (by simpa using hcap)
        · rw [getElem?_splice]
          split
          · exact hpiece i (by omega) (by omega)
          · exact hbuf i h₀ (by omega)
        · rw [← drop_drop, ← hchunks, drop_left]
      · refine ⟨_, rfl, fun i h₀ hi => ?_⟩
        rw [getElem?_splice, length_take]
        split
        · rw [getElem?_take_of_lt (by omega)]
          exact hpiece i (by omega) (by omega)
        · exact hbuf i h₀ (by omega)
    · rw [if_neg hoff]
      exact ⟨buf, rfl, hbuf.mono (Nat.le_refl 0) (by omega)⟩

def Request.action : Request → Action
  | .set key value => .set (key ++ [0]) value
  | .delete key => .delete (key ++ [0])

def Request.header : Request → Nat
  | .set _ _ => 3
  | .delete _ => 2

def Request.LengthsFit : Request → Prop
  | .set key value => key.length + 1 < 256 ∧ value.length < 256
  | .delete key => key.length + 1 < 256

section

variable {lim : Limits} {junk first : List UInt8} {rest : List (List UInt8)} {stream : List UInt8}

/-- The bytes of a request arrive in pieces, with any bytes in the buffer before. -/
structure Arrives (lim : Limits) (junk first : List UInt8) (rest : List (List UInt8)) (stream : List UInt8) : Prop where
  buffer : junk.length = lim.msgMax
  pieces : first ++ rest.flatten = stream
  first_ne : first ≠ []
  rest_ne : ∀ c ∈ rest, c ≠ []
  fits : stream.length < lim.msgMax

namespace Arrives

variable (h : Arrives lim junk first rest stream)

include h

theorem length_pos : 0 < first.length := length_pos_iff.mpr h.first_ne

theorem length_le : first.length ≤ junk.length := by
  have hlen := congrArg List.length h.pieces
  have hfits := h.fits
  rw [length_append] at hlen
  rw [h.buffer]
  omega

theorem getD_msg {i : Nat} (hi : i < 3) :
    (firstMsg junk first).getD i 0 = if i < first.length then stream.getD i 0 else 0 := by
  have hjunk : 3 ≤ junk.length := by
    rw [h.buffer, Limits.msgMax]
    omega
  rw [firstMsg, getD_eq_getElem?_getD, getElem?_splice, getElem?_splice, length_splice]
  split
  · rw [if_pos (by omega), getD_eq_getElem?_getD, ← h.pieces, getElem?_append_left (by omega)]
    rfl
  · rw [if_pos ⟨Nat.zero_le i, by simpa using hi, by omega⟩, if_neg (by omega)]
    have : i = 0 ∨ i = 1 ∨ i = 2 := by omega
    rcases this with rfl | rfl | rfl <;> rfl

theorem letter : (firstMsg junk first).getD 0 0 = stream.getD 0 0 := by
  rw [h.getD_msg (by decide), if_pos h.length_pos]

theorem toNat_getD_msg {i n : Nat} (hi : i < 3) (hn : stream.getD i 0 = .ofNat n) :
    ((firstMsg junk first).getD i 0).toNat = if i < first.length then n % 256 else 0 := by
  rw [h.getD_msg hi, apply_ite UInt8.toNat, hn, UInt8.toNat_ofNat']
  rfl

theorem agree_msg : Agree (firstMsg junk first) stream 0 first.length := by
  intro i h₀ hi
  have hfirst := h.length_le
  rw [firstMsg, getElem?_splice, length_splice, if_pos (by omega), ← h.pieces, getElem?_append_left hi]
  rfl

theorem kvdbClient_eq (dumplist : Bool) :
    kvdbClient lim dumplist junk (first :: rest) =
      kvdbSwitch lim dumplist (firstMsg junk first) first.length rest := by
  have hmax : first.length ≤ lim.msgMax := h.buffer ▸ h.length_le
  simp [kvdbClient, recv, hmax, h.first_ne]

theorem complete_eq {endPos : Nat} (act : List UInt8 → Option Action)
    (hend : endPos ≤ stream.length) (hact : ∀ msg, Agree msg stream 0 endPos → act msg = act stream) :
    complete lim (firstMsg junk first) first.length endPos rest act = act stream := by
  have hjunk := h.buffer
  have hfits := h.fits
  have hrest : rest.flatten = stream.drop first.length := by rw [← h.pieces, drop_left]
  obtain ⟨buf, hbuf, hagree⟩ := kvdbRecv_agree h.agree_msg hrest h.rest_ne hend
    (by simp only [firstMsg, length_splice]; omega)
  rw [complete, if_neg (by omega), hbuf, Option.bind_some, hact buf hagree]

end Arrives

theorem decoded_set (dumplist : Bool) {key value : List UInt8} (h : Arrives lim junk first rest stream)
    (hvalue : value.length ≠ 0)
    (hsend : stream = [83, .ofNat (key.length + 1), .ofNat value.length] ++ (key ++ [0]) ++ value) :
    kvdbClient lim dumplist junk (first :: rest) = some (.set (key ++ [0]) value) ↔
      3 ≤ first.length ∧ key.length + 1 < 256 ∧ value.length < 256 := by
  have hslen : stream.length = 3 + (key.length + 1) + value.length := by
    rw [hsend]
    simp only [length_append, length_cons, length_nil]
  have hcmd : (firstMsg junk first).getD 0 0 = 83 := h.letter.trans (by rw [hsend]; rfl)
  have hkbyte : stream.getD 1 0 = .ofNat (key.length + 1) := by rw [hsend]; rfl
  have hvbyte : stream.getD 2 0 = .ofNat value.length := by rw [hsend]; rfl
  rw [h.kvdbClient_eq dumplist, kvdbSwitch, hcmd, if_neg (by decide), if_neg (by decide), if_pos rfl,
    h.toNat_getD_msg (by decide) hkbyte, h.toNat_getD_msg (by decide) hvbyte]
  generalize hk : (if 1 < first.length then (key.length + 1) % 256 else 0) = k
  generalize hv : (if 2 < first.length then value.length % 256 else 0) = v
  have hkle : k ≤ key.length + 1 := by split at hk <;> omega
  have hvle : v ≤ value.length := by split at hv <;> omega
  rw [h.complete_eq _ (by omega)]
  · -- the lengths decide: both parts are cut from the bytes that were sent
    rw [Option.some.injEq, Action.set.injEq, hsend]
    constructor
    · rintro ⟨hkey', hvalue'⟩
      have h₁ := congrArg List.length hkey'
      have h₂ := congrArg List.length hvalue'
      simp only [length_take, length_drop, length_append, length_cons, length_nil] at h₁ h₂
      split at hk <;> split at hv <;> omega
    · rintro ⟨h3, hk', hv'⟩
      rw [if_pos (by omega), Nat.mod_eq_of_lt hk'] at hk
      rw [if_pos (by omega), Nat.mod_eq_of_lt hv'] at hv
      subst hk hv
      constructor
      · rw [append_assoc]
        change ((key ++ [0]) ++ value).take (key.length + 1) = key ++ [0]
        exact take_left' (by simp)
      · rw [drop_left' (by simp only [length_append, length_cons, length_nil]), take_length]
  · intro msg hagree
    rw [(hagree.mono (Nat.zero_le 3) (by omega)).range, (hagree.mono (Nat.zero_le (3 + k)) (by omega)).range]

theorem decoded_delete (dumplist : Bool) {key : List UInt8} (h : Arrives lim junk first rest stream)
    (hsend : stream = [68, .ofNat (key.length + 1)] ++ (key ++ [0])) :
    kvdbClient lim dumplist junk (first :: rest) = some (.delete (key ++ [0])) ↔
      2 ≤ first.length ∧ key.length + 1 < 256 := by
  have hslen : stream.length = 2 + (key.length + 1) := by
    rw [hsend]
    simp only [length_append, length_cons, length_nil]
  have hcmd : (firstMsg junk first).getD 0 0 = 68 := h.letter.trans (by rw [hsend]; rfl)
  have hkbyte : stream.getD 1 0 = .ofNat (key.length + 1) := by rw [hsend]; rfl
  rw [h.kvdbClient_eq dumplist, kvdbSwitch, hcmd, if_pos rfl, h.toNat_getD_msg (by decide) hkbyte]
  generalize hk : (if 1 < first.length then (key.length + 1) % 256 else 0) = k
  have hkle : k ≤ key.length + 1 := by split at hk <;> omega
  rw [h.complete_eq _ (by omega)]
  · rw [Option.some.injEq, Action.delete.injEq, hsend]
    change (key ++ [0]).take k = key ++ [0] ↔ _
    constructor
    · intro hkey'
      have h₁ := congrArg List.length hkey'
      simp only [length_take, length_append, length_cons, length_nil] at h₁
      split at hk <;> omega
    · rintro ⟨h2, hk'⟩
      rw [if_pos (by omega), Nat.mod_eq_of_lt hk'] at hk
      exact take_of_length_le (by simp [hk])
  · intro msg hagree
    rw [(hagree.mono (Nat.zero_le 2) (by omega)).range]

theorem propertySetBinary_eq_some {key value : List UInt8} (h : propertySetBinary lim key value = some stream) :
    stream = [83, .ofNat (key.length + 1), .ofNat value.length] ++ (key ++ [0]) ++ value ∧ value.length ≠ 0 ∧
      stream.length < lim.msgMax := by
  rw [propertySetBinary] at h
  split at h
  · cases h
  split at h
  · cases h
  rename_i hvalue
  cases h
  refine ⟨rfl, fun h0 => hvalue (.inl h0), ?_⟩
  rw [Limits.msgMax]
  simp only [length_append, length_cons, length_nil]
  omega

theorem propertyDelete_eq_some {key : List UInt8} (h : propertyDelete lim key = some stream) :
    stream = [68, .ofNat (key.length + 1)] ++ (key ++ [0]) ∧ stream.length < lim.msgMax := by
  rw [propertyDelete] at h
  split at h
  · cases h
  cases h
  refine ⟨rfl, ?_⟩
  rw [Limits.msgMax]
  simp only [length_append, length_cons, length_nil]
  omega

/-- **Framing.** The server performs a request the client accepts exactly where the first piece holds the letter and the
lengths, and the lengths fit a byte. -/
theorem decoded_iff (lim : Limits) (dumplist : Bool) (r : Request) (hjunk : junk.length = lim.msgMax)
    (hsend : r.send lim = some stream) (hstream : (first :: rest).flatten = stream)
    (hne : ∀ c ∈ first :: rest, c ≠ []) :
    kvdbClient lim dumplist junk (first :: rest) = some r.action ↔
      r.header ≤ first.length ∧ r.LengthsFit := by
  obtain ⟨hfirst, hne⟩ := forall_mem_cons.mp hne
  cases r with
  | set key value =>
    obtain ⟨hbytes, hvalue, hfits⟩ := propertySetBinary_eq_some hsend
    exact decoded_set dumplist ⟨hjunk, hstream, hfirst, hne, hfits⟩ hvalue hbytes
  | delete key =>
    obtain ⟨hbytes, hfits⟩ := propertyDelete_eq_some hsend
    exact decoded_delete dumplist ⟨hjunk, hstream, hfirst, hne, hfits⟩ hbytes

end

theorem decoded_pieces :
    (Request.set [107] [118]).send ⟨32, 92⟩ = some [83, 2, 1, 107, 0, 118] ∧
      kvdbClient ⟨32, 92⟩ false (List.replicate 127 0) [[83, 2, 1], [107], [0, 118]] =
        some (.set [107, 0] [118]) :=
  ⟨rfl, (decoded_iff ⟨32, 92⟩ false (.set [107] [118]) length_replicate rfl rfl (by decide)).mpr
    ⟨by decide, by decide, by decide⟩⟩

/-- Where the first piece is the letter alone, the server sets the empty key, or deletes it. -/
theorem first_byte_alone :
    (Request.set [107] [118]).send ⟨32, 92⟩ = some [83, 2, 1, 107, 0, 118] ∧
      kvdbClient ⟨32, 92⟩ false (List.replicate 127 0) [[83], [2, 1, 107, 0, 118]] = some (.set [] []) ∧
      (Request.delete [107]).send ⟨32, 92⟩ = some [68, 2, 107, 0] ∧
      kvdbClient ⟨32, 92⟩ false (List.replicate 127 0) [[68], [2, 107, 0]] = some (.delete []) :=
  ⟨by decide +kernel, by decide +kernel, by decide +kernel, by decide +kernel⟩

end NuttxApps.Kvdb
