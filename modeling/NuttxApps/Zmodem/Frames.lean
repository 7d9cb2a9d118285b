import NuttxApps.Zmodem.Parse

/-!
# Receiving ZMODEM frames

In a data packet, `Collects` says what has been stored so far, and `packet_received` that the last byte of the CRC
raises `ZME_DATARCVD` with the data. In a header, `Gathers` says what has been stored; the bytes of the three formats
make the parser take the payload (`Spells`) and lead to the check of its CRC (`Spells.checks`).
-/

namespace NuttxApps.Zmodem

open List

open Crc (be16 le32)

structure AtData (s : Parser) : Prop where
  pstate : s.pstate = .data .read
  esc : s.esc = false
  ncan : s.ncan = 0
  ncrc : s.ncrc = 0
  pktlen : s.pktlen = 0

theorem Begins.atData {C : Crcs} {size : Nat} {d : Parser} (h : Begins C size d) : AtData d := by
  have hesc := h.esc
  obtain ⟨⟨s, s₁, ch, out, -, -, -, oo, pktbuf, rfl⟩, hncan⟩ := h
  exact ⟨rfl, hesc, hncan, rfl, rfl⟩

def Flags.fmt (f : Flags) : UInt8 := if f.crc32 then 0x43 else 0x41

def Flags.ncrc (f : Flags) : Nat := if f.crc32 then 4 else 2

variable (C : Crcs) {size : Nat} {s : Parser} {bytes : List UInt8} {k : Nat} {fmt ch : UInt8} {f : Flags}

theorem upto_succ_store (buf : Nat → UInt8) (n : Nat) (ch : UInt8) :
    upto (n + 1) (store buf n ch) = upto n buf ++ [ch] := by
  rw [upto, range_succ, map_append, upto]
  refine congrArg₂ _ (map_congr_left fun i hi => ?_) ?_
  · exact if_neg (Nat.ne_of_lt (mem_range.mp hi))
  · simp [store]

theorem upto_take {n m : Nat} (h : m ≤ n) (buf : Nat → UInt8) : upto m buf = (upto n buf).take m := by
  rw [upto, upto, ← map_take, take_range, Nat.min_eq_left h]

theorem step_eq_dispatch (hncan : s.ncan = 0) (h18 : ch ≠ 0x18) (h11 : ch ≠ 0x11) (h13 : ch ≠ 0x13) :
    step C size s ch = dispatch C size s ch := by
  have hs : { s with ncan := 0 } = s := by rw [← hncan]
  simp only [step, h18, h11, h13, false_and, or_self, if_false, hs]

theorem put_data (hstate : ∃ sub, s.pstate = .data sub) (hesc : s.esc = false) (hncan : s.ncan = 0)
    (hlen : s.pktlen < size) (f : Flags) (ch : UInt8) :
    ∃ pre last s₁, (putzdle f ch).1 = pre ++ [last] ∧ run C size s pre = some s₁ ∧
      step C size s₁ last = dataStore C s ch := by
  obtain ⟨sub, hsub⟩ := hstate
  rcases putzdle_cases f ch with ⟨e, hput, hch, h18, h11, h13, hterm⟩ | ⟨hput, h18, h11, h13⟩
  · refine ⟨[0x18], e, { s with ncan := 1, esc := true }, hput, run_of_step ?_, ?_⟩
    · simp [step, hncan, dispatch, hsub, data, hesc]
    · have hs : { s with pstate := .data sub, ncan := 0, esc := false } = s := by rw [← hsub, ← hncan, ← hesc]
      have hnot : ¬ (0x68 ≤ e ∧ e ≤ 0x6b) := fun h => hterm.elim (UInt8.not_lt.mpr h.1) (UInt8.not_lt.mpr h.2)
      simp only [step, h18, h11, h13, false_and, or_self, if_false, dispatch, hsub, data, if_neg hnot, hch,
        if_neg (Nat.not_le.mpr hlen), if_true]
      exact congrArg (dataStore C · ch) hs
  · refine ⟨[], ch, s, hput, rfl, ?_⟩
    rw [step_eq_dispatch C hncan h18 h11 h13]
    simp only [dispatch, hsub, data, h18, false_and, if_false, if_neg (Nat.not_le.mpr hlen), hesc, Bool.false_eq_true]

theorem put_header (size : Nat) {sub : HeaderState} (hstate : s.pstate = .header sub) (hesc : s.esc = false)
    (hncan : s.ncan = 0) (f : Flags) (ch : UInt8) :
    ∃ pre last s₁, (putzdle f ch).1 = pre ++ [last] ∧ run C size s pre = some s₁ ∧
      step C size s₁ last = headerSwitch C sub s ch := by
  rcases putzdle_cases f ch with ⟨e, hput, hch, h18, h11, h13, -⟩ | ⟨hput, h18, h11, h13⟩
  · refine ⟨[0x18], e, { s with ncan := 1, esc := true }, hput, run_of_step ?_, ?_⟩
    · simp [step, hncan, dispatch, hstate, header, hesc]
    · have hs : { s with pstate := .header sub, ncan := 0, esc := false } = s := by rw [← hstate, ← hncan, ← hesc]
      simp only [step, h18, h11, h13, false_and, or_self, if_false, dispatch, hstate, header, hch, if_true]
      exact congrArg (headerSwitch C sub · ch) hs
  · refine ⟨[], ch, s, hput, rfl, ?_⟩
    rw [step_eq_dispatch C hncan h18 h11 h13]
    simp only [dispatch, hstate, header, h18, false_and, if_false, hesc, Bool.false_eq_true]

/-- In `PSTATE_DATA`, with these bytes in the packet buffer and `k` bytes of the CRC to come. -/
structure Collects (s : Parser) (bytes : List UInt8) (k : Nat) (fmt : UInt8) : Prop where
  pstate : ∃ sub, s.pstate = .data sub
  esc : s.esc = false
  ncan : s.ncan = 0
  hdrfmt : s.hdrfmt = fmt
  ncrc : s.ncrc = k
  pktlen : s.pktlen = bytes.length
  pktbuf : upto bytes.length s.pktbuf = bytes

theorem dataStore_of_ne (hk : s.ncrc ≠ 1) :
    dataStore C s ch =
      ({ s with
         pktbuf := store s.pktbuf s.pktlen ch, pktlen := (s.pktlen + 1) % 2 ^ 16, ncrc := s.ncrc - 1 }, .ok) := by
  rw [dataStore]
  dsimp only
  rw [if_neg hk]
  split
  · rfl
  · rw [show s.ncrc - 1 = s.ncrc by omega]

theorem Collects.store_ok (h : Collects s bytes k fmt) (C : Crcs) (hwrap : bytes.length + 1 < 2 ^ 16) (hk : k ≠ 1)
    (ch : UInt8) : ∃ s', dataStore C s ch = (s', .ok) ∧ Collects s' (bytes ++ [ch]) (k - 1) fmt := by
  refine ⟨_, dataStore_of_ne C (h.ncrc ▸ hk), h.pstate, h.esc, h.ncan, h.hdrfmt, congrArg (· - 1) h.ncrc, ?_, ?_⟩
  · rw [h.pktlen, Nat.mod_eq_of_lt hwrap, length_append]
    rfl
  · rw [length_append, length_singleton, h.pktlen, upto_succ_store, h.pktbuf]

theorem Collects.put (h : Collects s bytes k fmt) (C : Crcs) (hlen : bytes.length < size)
    (hwrap : bytes.length + 1 < 2 ^ 16) (hk : k ≠ 1) (f : Flags) (ch : UInt8) :
    ∃ s', run C size s (putzdle f ch).1 = some s' ∧ Collects s' (bytes ++ [ch]) (k - 1) fmt := by
  obtain ⟨pre, last, s₁, hput, hrun, hstep⟩ := put_data C h.pstate h.esc h.ncan (h.pktlen ▸ hlen) f ch
  obtain ⟨s', hstore, hs'⟩ := h.store_ok C hwrap hk ch
  refine ⟨s', ?_, hs'⟩
  rw [hput, run_append, hrun]
  exact run_of_step (hstep.trans hstore)

theorem Collects.encode (h : Collects s bytes 0 fmt) (C : Crcs) (data : List UInt8)
    (hlen : bytes.length + data.length ≤ size) (hwrap : bytes.length + data.length < 2 ^ 16) (f : Flags) :
    ∃ s', run C size s (encode f data) = some s' ∧ Collects s' (bytes ++ data) 0 fmt := by
  induction data generalizing s bytes f with
  | nil => exact ⟨s, rfl, by rwa [append_nil]⟩
  | cons ch data ih =>
    rw [length_cons] at hlen hwrap
    obtain ⟨s₁, hrun, hs₁⟩ := h.put C (show bytes.length < size by omega) (by omega) (by decide) f ch
    obtain ⟨s', hrest, hs'⟩ := ih hs₁ (by simp; omega) (by simp; omega) (putzdle f ch).2
    refine ⟨s', ?_, by rwa [append_assoc] at hs'⟩
    rw [Zmodem.encode, run_append, hrun]
    exact hrest

theorem Collects.term (h : Collects s bytes 0 fmt) (C : Crcs) (hlen : bytes.length < size)
    (hwrap : bytes.length + 1 < 2 ^ 16) :
    ∃ s', run C size s [0x18, 0x6b] = some s' ∧
      Collects s' (bytes ++ [0x6b]) (if fmt = 0x43 then 4 else 2) fmt := by
  obtain ⟨sub, hsub⟩ := h.pstate
  have hzdle : step C size s 0x18 = ({ s with ncan := 1, esc := true }, .ok) := by
    simp [step, h.ncan, dispatch, hsub, data, h.esc]
  have hcrc : Collects
      { s with
        ncan := 0, pkttype := 0x6b, pstate := .data .crc, ncrc := if s.hdrfmt = 0x43 then 5 else 3, esc := false }
      bytes (if fmt = 0x43 then 5 else 3) fmt :=
    ⟨⟨_, rfl⟩, rfl, rfl, h.hdrfmt, by rw [h.hdrfmt], h.pktlen, h.pktbuf⟩
  obtain ⟨s', hstore, hs'⟩ := hcrc.store_ok C hwrap (by split <;> decide) 0x6b
  refine ⟨s', ?_, ?_⟩
  · rw [show [(0x18 : UInt8), 0x6b] = [0x18] ++ [0x6b] from rfl, run_append, run_of_step hzdle]
    refine run_of_step (Eq.trans ?_ hstore)
    have hfull : ¬ size ≤ s.pktlen := by
      rw [h.pktlen]
      omega
    simp [step, dispatch, hsub, data, hfull]
  · rwa [show (if fmt = 0x43 then 5 else 3) - 1 = if fmt = 0x43 then 4 else 2 by split <;> rfl] at hs'

theorem Collects.crc (h : Collects s bytes k fmt) (C : Crcs) {tail : List UInt8} {b : UInt8}
    (htail : tail.length + 1 = k) (hlen : bytes.length + k ≤ size) (hwrap : bytes.length + tail.length < 2 ^ 16)
    (f : Flags) :
    ∃ pre last s₁ s₂, Zmodem.encode f (tail ++ [b]) = pre ++ [last] ∧ run C size s pre = some s₁ ∧
      step C size s₁ last = dataStore C s₂ b ∧ Collects s₂ (bytes ++ tail) 1 fmt := by
  induction tail generalizing s bytes k f with
  | nil =>
    obtain rfl : k = 1 := htail.symm
    have hroom : s.pktlen < size := by
      rw [h.pktlen]
      omega
    obtain ⟨pre, last, s₁, hput, hrun, hstep⟩ := put_data C h.pstate h.esc h.ncan hroom f b
    exact ⟨pre, last, s₁, s, by simpa [Zmodem.encode] using hput, hrun, hstep, by rwa [append_nil]⟩
  | cons ch tail ih =>
    rw [length_cons] at htail hwrap
    obtain ⟨s₀, hrun₀, hs₀⟩ := h.put C (show bytes.length < size by omega) (by omega) (by omega) f ch
    obtain ⟨pre, last, s₁, s₂, henc, hrun, hstep, hs₂⟩ :=
      ih hs₀ (by omega) (by simp; omega) (by simp; omega) (putzdle f ch).2
    refine ⟨(putzdle f ch).1 ++ pre, last, s₁, s₂, ?_, ?_, hstep, by rwa [append_assoc] at hs₂⟩
    · rw [cons_append, Zmodem.encode, henc, append_assoc]
    · rw [run_append, hrun₀]
      exact hrun

theorem length_crcBytes (f : Flags) (data : List UInt8) : (crcBytes C f data).length = f.ncrc := by
  rw [crcBytes, Flags.ncrc]
  split <;> rfl

theorem packet_run (hs : AtData s) (f : Flags) (data : List UInt8)
    (hlen : data.length + 1 + f.ncrc ≤ size) (hwrap : data.length + f.ncrc < 2 ^ 16) :
    ∃ pre last s₁ s₂ tail b, packet C f data = pre ++ [last] ∧
      run C size { s with hdrfmt := f.fmt } pre = some s₁ ∧ step C size s₁ last = dataStore C s₂ b ∧
      crcBytes C f data = tail ++ [b] ∧ Collects s₂ (data ++ [0x6b] ++ tail) 1 f.fmt := by
  have hncrc : 1 ≤ f.ncrc ∧ (if f.fmt = 0x43 then 4 else 2) = f.ncrc := by
    rw [Flags.ncrc, Flags.fmt]
    cases f.crc32 <;> decide
  have hstart : Collects { s with hdrfmt := f.fmt } [] 0 f.fmt :=
    ⟨⟨_, hs.pstate⟩, hs.esc, hs.ncan, rfl, hs.ncrc, hs.pktlen, rfl⟩
  obtain ⟨s₁, hdata, hs₁⟩ := hstart.encode C data (show 0 + data.length ≤ size by omega) (by simp; omega) f
  obtain ⟨s₂, hterm, hs₂⟩ := hs₁.term C (show data.length < size by omega) (by simp; omega)
  rw [hncrc.2, nil_append] at hs₂
  have hne : crcBytes C f data ≠ [] := ne_nil_of_length_pos (by rw [length_crcBytes]; omega)
  have hcrc := (dropLast_concat_getLast hne).symm
  have htail : (crcBytes C f data).dropLast.length + 1 = f.ncrc := by
    rw [length_dropLast, length_crcBytes]
    omega
  have hcount : (data ++ [(0x6b : UInt8)]).length = data.length + 1 := by simp
  have hroom : (data ++ [(0x6b : UInt8)]).length + f.ncrc ≤ size := by omega
  obtain ⟨pre, last, s₃, s₄, henc, hrun, hstep, hs₄⟩ := hs₂.crc C htail hroom (by omega) (after f data)
  refine ⟨Zmodem.encode f data ++ [0x18, 0x6b] ++ pre, last, s₃, s₄, _, _, ?_, ?_, hstep, hcrc, hs₄⟩
  · rw [packet, hcrc, henc, ← append_assoc]
  · rw [run_append, run_append, hdata, Option.bind_some, hterm]
    exact hrun

theorem foldl_part {α : Type} {part : List UInt8 → α → α} (happ : ∀ s t c, part (s ++ t) c = part t (part s c))
    {s : List UInt8} (hs : s ≠ []) (c : α) : s.foldl (fun c b => part [b] c) c = part s c := by
  induction s generalizing c with
  | nil => exact absurd rfl hs
  | cons b s ih =>
    rw [foldl_cons]
    cases s with
    | nil => rfl
    | cons b' s => rw [ih nofun, show b :: b' :: s = [b] ++ b' :: s from rfl, happ]

theorem crcBytes_residue (f : Flags) (data : List UInt8) :
    if f.crc32 then C.crc32 (data ++ [0x6b] ++ crcBytes C f data) 0xffffffff = 0xdebb20e3
    else C.crc16 (data ++ [0x6b] ++ crcBytes C f data) 0 = 0 := by
  have hne : data ++ [0x6b] ≠ [] := by simp
  rw [crcBytes]
  split
  · rw [foldl_part C.crc32_append hne]
    exact C.crc32_residue _
  · rw [foldl_part C.crc16_append hne]
    exact C.crc16_residue _

theorem Collects.store_last (h : Collects s bytes 1 f.fmt) (C : Crcs) (ch : UInt8) :
    ∃ s', dataStore C s ch = (s', .raise .datarcvd) ∧ upto (bytes.length + 1) s'.pktbuf = bytes ++ [ch] ∧
      s'.pktlen = ((bytes.length + 1) % 2 ^ 16 + 2 ^ 16 - (f.ncrc + 1)) % 2 ^ 16 ∧
      s'.crkok = if f.crc32 then C.crc32 (upto ((bytes.length + 1) % 2 ^ 16) s'.pktbuf) 0xffffffff == 0xdebb20e3
        else C.crc16 (upto ((bytes.length + 1) % 2 ^ 16) s'.pktbuf) 0 == 0 := by
  have hbuf : upto (bytes.length + 1) (store s.pktbuf s.pktlen ch) = bytes ++ [ch] := by
    rw [h.pktlen, upto_succ_store, h.pktbuf]
  have hfmt := h.hdrfmt
  rw [Flags.fmt] at hfmt
  rw [dataStore]
  rw [if_pos h.ncrc, dataevent]
  rw [h.pktlen] at hbuf ⊢
  rw [Flags.ncrc]
  by_cases hcrc : f.crc32
  · rw [if_pos hcrc] at hfmt
    simp only [if_pos hfmt, if_pos hcrc]
    exact ⟨_, rfl, hbuf, rfl, rfl⟩
  · rw [if_neg hcrc] at hfmt
    have hne : s.hdrfmt ≠ 0x43 := by
      rw [hfmt]
      decide
    simp only [if_neg hne, if_neg hcrc]
    exact ⟨_, rfl, hbuf, rfl, rfl⟩

theorem packet_received (hs : AtData s) (f : Flags) (data : List UInt8)
    (hlen : data.length + 1 + f.ncrc ≤ size) (hwrap : data.length + 1 + f.ncrc < 2 ^ 16) :
    ∃ pre last s₁ s₂, packet C f data = pre ++ [last] ∧ run C size { s with hdrfmt := f.fmt } pre = some s₁ ∧
      step C size s₁ last = (s₂, .raise .datarcvd) ∧ s₂.crkok = true ∧ upto s₂.pktlen s₂.pktbuf = data := by
  obtain ⟨pre, last, s₁, s₂, tail, b, hpacket, hrun, hstep, hcrc, hs₂⟩ := packet_run C hs f data hlen (by omega)
  obtain ⟨s₃, hstore, hbuf, hpktlen, hcrkok⟩ := hs₂.store_last C b
  have htail : tail.length + 1 = f.ncrc := by
    rw [← length_crcBytes C f data, hcrc, length_append, length_singleton]
  have hcount : (data ++ [0x6b] ++ tail).length + 1 = data.length + 1 + f.ncrc := by
    simp
    omega
  rw [append_assoc (data ++ [0x6b]), ← hcrc, hcount] at hbuf
  rw [hcount, Nat.mod_eq_of_lt (a := data.length + 1 + f.ncrc) (by omega)] at hpktlen hcrkok
  refine ⟨pre, last, s₁, s₃, hpacket, hrun, hstep.trans hstore, ?_, ?_⟩
  · have hresidue := crcBytes_residue C f data
    rw [hcrkok, hbuf]
    split_ifs at hresidue with h
    · rw [if_pos h, hresidue]
      rfl
    · rw [if_neg h, hresidue]
      rfl
  · rw [show s₃.pktlen = data.length by omega, upto_take (n := data.length + 1 + f.ncrc) (by omega), hbuf,
      append_assoc, take_left]

structure Gathers (s : Parser) (bytes : List UInt8) (fmt : UInt8) : Prop where
  pstate : s.pstate = .header .payload
  esc : s.esc = false
  ncan : s.ncan = 0
  hdrfmt : s.hdrfmt = fmt
  hdrndx : s.hdrndx = bytes.length
  hdrdata : upto bytes.length s.hdrdata = bytes

def hdrLen (fmt : UInt8) : Nat := if fmt = 0x43 then 9 else 7

structure Takes (C : Crcs) (size : Nat) (s : Parser) (out bytes : List UInt8) (fmt ch : UInt8) : Prop where
  more : bytes.length + 1 < hdrLen fmt → ∃ s', run C size s out = some s' ∧ Gathers s' (bytes ++ [ch]) fmt
  last : bytes.length + 1 = hdrLen fmt → ∃ pre last s₁ s₂, out = pre ++ [last] ∧ run C size s pre = some s₁ ∧
    step C size s₁ last = hdrevent C s₂ ∧ s₂.ncan = 0 ∧ s₂.hdrfmt = fmt ∧
    upto (hdrLen fmt) s₂.hdrdata = bytes ++ [ch]

theorem Gathers.takes (h : Gathers s bytes fmt) {pre out : List UInt8} {last : UInt8} {s₁ : Parser} {p : PState}
    (hout : out = pre ++ [last]) (hrun : run C size s pre = some s₁) (hstep : step C size s₁ last =
      if hdrLen fmt ≤ bytes.length + 1 then
        hdrevent C { s with hdrdata := store s.hdrdata s.hdrndx ch, pstate := p }
      else
        ({ s with hdrdata := store s.hdrdata s.hdrndx ch, pstate := .header .payload, hdrndx := s.hdrndx + 1 }, .ok)) :
    Takes C size s out bytes fmt ch := by
  have hbuf : upto (bytes.length + 1) (store s.hdrdata s.hdrndx ch) = bytes ++ [ch] := by
    rw [h.hdrndx, upto_succ_store, h.hdrdata]
  constructor
  · intro hmore
    rw [if_neg (Nat.not_le.mpr hmore)] at hstep
    refine ⟨{ s with hdrdata := store s.hdrdata s.hdrndx ch, pstate := .header .payload, hdrndx := s.hdrndx + 1 }, ?_,
      rfl, h.esc, h.ncan, h.hdrfmt, ?_, ?_⟩
    · rw [hout, run_append, hrun]
      exact run_of_step hstep
    · rw [h.hdrndx, length_append, length_singleton]
    · rwa [length_append, length_singleton]
  · intro hdone
    rw [if_pos (Nat.le_of_eq hdone.symm)] at hstep
    exact ⟨pre, last, s₁, _, hout, hrun, hstep, h.ncan, h.hdrfmt, by rw [← hdone]; exact hbuf⟩

theorem Gathers.put (h : Gathers s bytes fmt) (C : Crcs) (size : Nat) (hfmt : fmt = 0x41 ∨ fmt = 0x43) (f : Flags)
    (ch : UInt8) : Takes C size s (putzdle f ch).1 bytes fmt ch := by
  obtain ⟨pre, last, s₁, hput, hrun, hstep⟩ := put_header C size h.pstate h.esc h.ncan f ch
  have hne : s.hdrfmt ≠ 0x42 := by
    rw [h.hdrfmt]
    rcases hfmt with rfl | rfl <;> decide
  have hlast : (s.hdrndx + 1 ≥ 9 ∨ s.hdrfmt = 0x41 ∧ s.hdrndx + 1 ≥ 7) ↔ hdrLen fmt ≤ bytes.length + 1 := by
    rw [h.hdrndx, h.hdrfmt, hdrLen]
    rcases hfmt with rfl | rfl
    · simp
      omega
    · simp
  rw [headerSwitch, if_neg hne, if_pos (h.hdrfmt ▸ hfmt)] at hstep
  simp only [hlast] at hstep
  exact h.takes C hput hrun hstep

theorem puthex8_cases (ch : UInt8) : ∃ hi lo, puthex8 ch = [hi, lo] ∧ isxdigit hi ∧ isxdigit lo ∧
    decnibble hi <<< 4 ||| decnibble lo = ch ∧ (hi ≠ 0x18 ∧ hi ≠ 0x11 ∧ hi ≠ 0x13) ∧
    (lo ≠ 0x18 ∧ lo ≠ 0x11 ∧ lo ≠ 0x13) := by
  have hall : ∀ n < 256,
      let hi := encnibble (UInt8.ofNat n >>> 4 &&& 0xf)
      let lo := encnibble (UInt8.ofNat n &&& 0xf)
      isxdigit hi ∧ isxdigit lo ∧ decnibble hi <<< 4 ||| decnibble lo = UInt8.ofNat n ∧
        (hi ≠ 0x18 ∧ hi ≠ 0x11 ∧ hi ≠ 0x13) ∧ (lo ≠ 0x18 ∧ lo ≠ 0x11 ∧ lo ≠ 0x13) := by
    decide +kernel
  have h := hall ch.toNat ch.toNat_lt
  rw [UInt8.ofNat_toNat] at h
  exact ⟨_, _, rfl, h⟩

theorem Gathers.puthex (h : Gathers s bytes 0x42) (C : Crcs) (size : Nat) (ch : UInt8) :
    Takes C size s (puthex8 ch) bytes 0x42 ch := by
  obtain ⟨hi, lo, hput, hxhi, hxlo, hch, ⟨hi18, hi11, hi13⟩, lo18, lo11, lo13⟩ := puthex8_cases ch
  have hms : step C size s hi =
      ({ s with hdrdata := store s.hdrdata s.hdrndx (decnibble hi <<< 4), pstate := .header .lspayload }, .ok) := by
    rw [step_eq_dispatch C h.ncan hi18 hi11 hi13]
    simp [dispatch, h.pstate, header, hi18, h.esc, headerSwitch, h.hdrfmt, hxhi]
  have hstore : store (store s.hdrdata s.hdrndx (decnibble hi <<< 4)) s.hdrndx
      (store s.hdrdata s.hdrndx (decnibble hi <<< 4) s.hdrndx ||| decnibble lo) = store s.hdrdata s.hdrndx ch := by
    rw [← hch]
    funext j
    simp only [store, if_true]
    split <;> rfl
  refine h.takes C (p := .header .lspayload) hput (run_of_step hms) ?_
  refine (step_eq_dispatch C ?_ lo18 lo11 lo13).trans ?_
  · exact h.ncan
  · rw [← h.hdrndx]
    simp only [dispatch, header, lo18, h.esc, headerSwitch, h.hdrfmt, hxlo, hstore, false_and, and_self, if_false,
      if_true, Bool.false_eq_true]
    rfl

/-- What the payload of a header leads to: the check of its CRC, at its last byte. -/
def Checks (size : Nat) (s : Parser) (out payload : List UInt8) (fmt : UInt8) : Prop :=
  ∃ pre last s₁ s₂, out = pre ++ [last] ∧ run C size s pre = some s₁ ∧ step C size s₁ last = hdrevent C s₂ ∧
    s₂.ncan = 0 ∧ s₂.hdrfmt = fmt ∧ upto (hdrLen fmt) s₂.hdrdata = payload

theorem Checks.prepend {s₀ : Parser} {front out payload : List UInt8} (hrun : run C size s₀ front = some s)
    (h : Checks C size s out payload fmt) : Checks C size s₀ (front ++ out) payload fmt := by
  obtain ⟨pre, last, s₁, s₂, rfl, hpre, hstep, hrest⟩ := h
  refine ⟨front ++ pre, last, s₁, s₂, (append_assoc ..).symm, ?_, hstep, hrest⟩
  rw [run_append, hrun]
  exact hpre

/-- The bytes `out` make the parser take the bytes of the payload one after the other. -/
inductive Spells (C : Crcs) (size : Nat) (fmt : UInt8) : List UInt8 → List UInt8 → Prop
  | nil : Spells C size fmt [] []
  | cons {ch : UInt8} {out payload rest : List UInt8}
    (takes : ∀ {s bytes}, Gathers s bytes fmt → Takes C size s out bytes fmt ch)
    (more : Spells C size fmt payload rest) : Spells C size fmt (ch :: payload) (out ++ rest)

theorem spells_encode (size : Nat) (hfmt : fmt = 0x41 ∨ fmt = 0x43) (f : Flags) (payload : List UInt8) :
    Spells C size fmt payload (encode f payload) := by
  induction payload generalizing f with
  | nil => exact .nil
  | cons ch payload ih => exact .cons (fun h => h.put C size hfmt f ch) (ih _)

theorem spells_hex (size : Nat) (payload : List UInt8) : Spells C size 0x42 payload (payload.flatMap puthex8) := by
  induction payload with
  | nil => exact .nil
  | cons ch payload ih => exact .cons (fun h => h.puthex C size ch) ih

theorem Spells.checks {payload out : List UInt8} (h : Spells C size fmt payload out) (hs : Gathers s bytes fmt)
    (hne : payload ≠ []) (hlen : bytes.length + payload.length = hdrLen fmt) :
    Checks C size s out (bytes ++ payload) fmt := by
  induction h generalizing s bytes with
  | nil => exact absurd rfl hne
  | @cons ch out payload rest takes more ih =>
    rw [length_cons] at hlen
    cases more with
    | nil =>
      rw [append_nil]
      exact (takes hs).last hlen
    | @cons ch' out' payload' rest' takes' more' =>
      rw [length_cons] at hlen
      obtain ⟨s', hrun, hs'⟩ := (takes hs).more (by omega)
      have hrest := ih hs' nofun (by simp; omega)
      rw [append_assoc] at hrest
      exact hrest.prepend C hrun

theorem gathers_of_idle (size : Nat) {sub : IdleState} (hs : s.pstate = .idle sub) (hesc : s.esc = false)
    (hfmt : fmt = 0x42 ∨ fmt = 0x41 ∨ fmt = 0x43) :
    ∃ s', run C size s [0x2a, 0x18, fmt] = some s' ∧ Gathers s' [] fmt := by
  have hpad : step C size s 0x2a = ({ s with ncan := 0, pstate := .idle .zdle }, .ok) := by
    simp [step, dispatch, hs, idle]
  have hzdle : step C size { s with ncan := 0, pstate := .idle .zdle } 0x18 =
      ({ s with ncan := 1, oo := false, pstate := .header .format }, .ok) := by
    simp [step, dispatch, idle]
  have hformat : step C size { s with ncan := 1, oo := false, pstate := .header .format } fmt =
      ({ s with ncan := 0, oo := false, hdrfmt := fmt, pstate := .header .payload, hdrndx := 0 }, .ok) := by
    rcases hfmt with rfl | rfl | rfl <;> simp [step, dispatch, header, hesc, headerSwitch]
  refine ⟨{ s with ncan := 0, oo := false, hdrfmt := fmt, pstate := .header .payload, hdrndx := 0 }, ?_,
    rfl, hesc, rfl, rfl, rfl, rfl⟩
  rw [run, hpad]
  dsimp only
  exact run_of_step hformat

end NuttxApps.Zmodem
