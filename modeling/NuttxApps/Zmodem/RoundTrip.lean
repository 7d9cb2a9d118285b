import NuttxApps.Zmodem.Frames

/-!
# ZMODEM frames survive encoding

`DataSurvives` and `HeaderSurvives`: what a sender writes makes the receiver raise just the event for it, with the data
sent, however the bytes are split. `frames_survive_iff` says when this holds of every state the parser can be in.
-/

namespace NuttxApps.Zmodem

open Crc (be16 le32)

inductive Format
  | hex
  | bin16
  | bin32

def Format.fmt : Format → UInt8
  | .hex => 0x42
  | .bin16 => 0x41
  | .bin32 => 0x43

variable (C : Crcs) (big : Bool)

def payload (type : UInt8) (buffer : Vector UInt8 4) : Format → List UInt8
  | .hex => type :: buffer.toList ++ be16 (hdrcrc16 C big type buffer)
  | .bin16 => type :: buffer.toList ++ be16 (hdrcrc16 C big type buffer)
  | .bin32 => type :: buffer.toList ++ le32 (~~~ hdrcrc32 C big type buffer)

def sendhdr (f : Flags) (type : UInt8) (buffer : Vector UInt8 4) : Format → List UInt8
  | .hex => sendhexhdr C big type buffer
  | .bin16 => sendbin16hdr C big f type buffer
  | .bin32 => sendbin32hdr C big f type buffer

/-- The reads of `zm_datapump`, which together give `bytes`. -/
structure Reads (rcvbufsize : Nat) (bytes : List UInt8) (bufs : List (List UInt8)) : Prop where
  flatten : bufs.flatten = bytes
  length_le : ∀ buf ∈ bufs, buf.length ≤ rcvbufsize

/-- Every packet that fits raises one `ZME_DATARCVD`, at its last byte, with the data sent. -/
def DataSurvives (inplace : Bool) (size rcvbufsize : Nat) (s : Parser) : Prop :=
  ∀ (f : Flags) (data : List UInt8) (h : Session), data.length + 1 + f.ncrc ≤ size →
    (∀ bufs, Reads rcvbufsize (senddata C inplace f data) bufs →
      ∃ s₁, pump C size h { s with hdrfmt := f.fmt } bufs = [(.datarcvd, s₁)] ∧ s₁.crkok = true ∧
        upto s₁.pktlen s₁.pktbuf = data) ∧
    ∀ bufs, Reads rcvbufsize (senddata C inplace f data).dropLast bufs →
      pump C size h { s with hdrfmt := f.fmt } bufs = []

def KeepsIdle (h : Session) : Prop := ∀ out s, ∃ sub, (h out s).1.pstate = .idle sub

/-- Every header raises the event of its type, with the data sent, and nothing else. -/
def HeaderSurvives (size rcvbufsize : Nat) (s : Parser) : Prop :=
  ∀ (f : Flags) (format : Format) (type : UInt8) (buffer : Vector UInt8 4) (h : Session), type < 20 →
    ∀ bufs, Reads rcvbufsize (sendhdr C big f type buffer format) bufs →
      ∃ s₁ tail, pump C size h s bufs = (.header type, s₁) :: tail ∧ upto 5 s₁.hdrdata = type :: buffer.toList ∧
        (KeepsIdle h → tail = [])

section

variable {rcvbufsize : Nat} {bytes : List UInt8} {bufs : List (List UInt8)}

theorem Reads.short (h : Reads rcvbufsize bytes bufs) (hlt : rcvbufsize < 2 ^ 16 ∨ bytes.length < 2 ^ 16) :
    ∀ buf ∈ bufs, buf.length < 2 ^ 16 := by
  intro buf hbuf
  have hle := h.length_le buf hbuf
  have hall : buf.length ≤ bytes.length := h.flatten ▸ (List.sublist_flatten_of_mem hbuf).length_le
  omega

/-- One byte at a time. -/
theorem reads_singletons (hpos : 0 < rcvbufsize) (bytes : List UInt8) :
    Reads rcvbufsize bytes (bytes.map fun b => [b]) where
  flatten := by rw [← List.flatMap_def, List.flatMap_singleton']
  length_le := by simpa using fun _ _ => Nat.succ_le_of_lt hpos

theorem length_encode_le (f : Flags) (s : List UInt8) : (encode f s).length ≤ 2 * s.length := by
  have := escapeCount_le f s
  rw [length_encode]
  omega

theorem length_packet_le (f : Flags) (data : List UInt8) :
    (packet C f data).length ≤ 2 * (data.length + 1 + f.ncrc) := by
  have hdata := length_encode_le f data
  have hcrc := length_encode_le (after f data) (crcBytes C f data)
  rw [length_crcBytes] at hcrc
  simp only [packet, List.length_append, List.length_cons, List.length_nil]
  omega

theorem length_payload (type : UInt8) (buffer : Vector UInt8 4) (format : Format) :
    (payload C big type buffer format).length = hdrLen format.fmt := by
  cases format <;> simp [payload, be16, le32, hdrLen, Format.fmt]

theorem length_sendhdr_lt (f : Flags) (type : UInt8) (buffer : Vector UInt8 4) (format : Format) :
    (sendhdr C big f type buffer format).length < 2 ^ 16 := by
  have hencode := length_encode_le f (payload C big type buffer format)
  have hdr : hdrLen format.fmt ≤ 9 := by cases format <;> decide
  rw [length_payload] at hencode
  have hbin (z : UInt8) : ([0x2a, 0x18, z] ++ encode f (payload C big type buffer format)).length < 2 ^ 16 := by
    rw [List.length_append, List.length_cons, List.length_cons, List.length_singleton]
    omega
  cases format with
  | hex =>
    simp only [sendhdr, sendhexhdr]
    split <;> simp [be16, puthex8]
  | bin16 => exact hbin 0x41
  | bin32 => exact hbin 0x43

end

/-! ## Little-endian, the data elsewhere -/

section

variable (C : Crcs) {size rcvbufsize : Nat} {s : Parser}

theorem pump_last {s₁ s₂ : Parser} {pre : List UInt8} {last : UInt8} {out : Output} (h : Session)
    (hrun : run C size s pre = some s₁) (hstep : step C size s₁ last = (s₂, .raise out)) (bufs : List (List UInt8))
    (hshort : ∀ buf ∈ bufs, buf.length < 2 ^ 16) (hbufs : bufs.flatten = pre ++ [last]) :
    pump C size h s bufs = [(out, s₂)] := by
  obtain ⟨tail, hpump, htail⟩ := pump_of_raise h hrun hstep bufs hshort hbufs
  rcases htail with rfl | ⟨rest, hshort, hrest, rfl⟩
  · exact hpump
  · have hnil : rest.flatten = [] := List.eq_nil_iff_forall_not_mem.mpr fun b hb => nomatch hrest b hb
    rw [hpump, pump_of_run h rest hshort (by rw [hnil]; rfl)]

theorem dataSurvives (hs : AtData s) (hsize : size < 2 ^ 16) (hrcv : rcvbufsize < 2 ^ 16 ∨ size < 2 ^ 15) :
    DataSurvives C false size rcvbufsize s := by
  intro f data h hlen
  obtain ⟨pre, last, s₁, s₂, hpacket, hrun, hstep, hcrkok, hdata⟩ := packet_received C hs f data hlen (by omega)
  have hsend : senddata C false f data = pre ++ [last] := hpacket
  have hle := length_packet_le C f data
  have hshort : rcvbufsize < 2 ^ 16 ∨ (pre ++ [last]).length < 2 ^ 16 := by
    rw [← hpacket]
    omega
  rw [hsend]
  refine ⟨fun bufs hbufs => ⟨s₂, pump_last C h hrun hstep bufs (hbufs.short hshort) hbufs.flatten, hcrkok, hdata⟩,
    fun bufs hbufs => ?_⟩
  rw [List.dropLast_concat] at hbufs
  refine pump_of_run h bufs (hbufs.short (hshort.imp_right fun hlt => ?_)) (by rw [hbufs.flatten]; exact hrun)
  rw [List.length_append] at hlt
  omega

theorem run_idle (size : Nat) {bytes : List UInt8} (hs : ∃ sub, s.pstate = .idle sub)
    (hbytes : ∀ b ∈ bytes, b = 0x0d ∨ b = 0x0a ∨ b = 0x11) : ∃ s', run C size s bytes = some s' := by
  induction bytes generalizing s with
  | nil => exact ⟨s, rfl⟩
  | cons b bytes ih =>
    obtain ⟨sub, hsub⟩ := hs
    obtain ⟨s₁, hstep, hs₁⟩ : ∃ s₁, step C size s b = (s₁, .ok) ∧ ∃ sub, s₁.pstate = .idle sub := by
      rcases hbytes b List.mem_cons_self with rfl | rfl | rfl
      · exact ⟨{ s with ncan := 0, pstate := .idle .zpad }, by simp [step, dispatch, hsub, idle], _, rfl⟩
      · exact ⟨{ s with ncan := 0, pstate := .idle .zpad }, by simp [step, dispatch, hsub, idle], _, rfl⟩
      · exact ⟨{ s with ncan := 0 }, by simp [step], sub, hsub⟩
    obtain ⟨s', hrun⟩ := ih hs₁ fun b hb => hbytes b (List.mem_cons_of_mem _ hb)
    refine ⟨s', ?_⟩
    rw [run, hstep]
    exact hrun

theorem sendhdr_checks (big : Bool) (size : Nat) (hs : ∃ sub, s.pstate = .idle sub) (hesc : s.esc = false) (f : Flags)
    (type : UInt8) (buffer : Vector UInt8 4) (format : Format) :
    ∃ out post, sendhdr C big f type buffer format = out ++ post ∧ (∀ b ∈ post, b = 0x0d ∨ b = 0x0a ∨ b = 0x11) ∧
      Checks C size s out (payload C big type buffer format) format.fmt := by
  obtain ⟨sub, hsub⟩ := hs
  have hlen : ([] : List UInt8).length + (payload C big type buffer format).length = hdrLen format.fmt := by
    rw [List.length_nil, zero_add, length_payload]
  have hne : payload C big type buffer format ≠ [] := by cases format <;> exact List.cons_ne_nil _ _
  have hfmt : format.fmt = 0x42 ∨ format.fmt = 0x41 ∨ format.fmt = 0x43 := by cases format <;> decide
  cases format with
  | hex =>
    have hpad : step C size s 0x2a = ({ s with ncan := 0, pstate := .idle .zdle }, .ok) := by
      simp [step, dispatch, hsub, idle]
    obtain ⟨s', hrun, hs'⟩ := gathers_of_idle C (s := { s with ncan := 0, pstate := .idle .zdle }) size rfl hesc hfmt
    have hchecks := (spells_hex C size (payload C big type buffer .hex)).checks C hs' hne hlen
    refine ⟨[0x2a] ++ ([0x2a, 0x18, 0x42] ++ (payload C big type buffer .hex).flatMap puthex8),
      [0x0d, 0x0a] ++ (if type ≠ 3 ∧ type ≠ 8 then [0x11] else []), ?_, ?_,
      (hchecks.prepend C hrun).prepend C (run_of_step hpad)⟩
    · simp [sendhdr, sendhexhdr, payload]
    · intro b hb
      split at hb
      · simpa using hb
      · have : b = 0x0d ∨ b = 0x0a := by simpa using hb
        exact this.imp_right .inl
  | bin16 =>
    obtain ⟨s', hrun, hs'⟩ := gathers_of_idle C size hsub hesc hfmt
    have hchecks := (spells_encode C size (.inl rfl) f (payload C big type buffer .bin16)).checks C hs' hne hlen
    exact ⟨_, [], (List.append_nil _).symm, by simp, hchecks.prepend C hrun⟩
  | bin32 =>
    obtain ⟨s', hrun, hs'⟩ := gathers_of_idle C size hsub hesc hfmt
    have hchecks := (spells_encode C size (.inr rfl) f (payload C big type buffer .bin32)).checks C hs' hne hlen
    exact ⟨_, [], (List.append_nil _).symm, by simp, hchecks.prepend C hrun⟩

theorem payload_residue (type : UInt8) (buffer : Vector UInt8 4) (format : Format) :
    if format.fmt = 0x43 then C.crc32 (payload C false type buffer format) 0xffffffff = 0xdebb20e3
    else C.crc16 (payload C false type buffer format) 0 = 0 := by
  have h16 : hdrcrc16 C false type buffer = C.crc16 (type :: buffer.toList) 0 :=
    (C.crc16_append [type] buffer.toList 0).symm
  have h32 : hdrcrc32 C false type buffer = C.crc32 (type :: buffer.toList) 0xffffffff :=
    (C.crc32_append [type] buffer.toList 0xffffffff).symm
  cases format with
  | hex =>
    rw [if_neg (by decide), payload, h16]
    exact C.crc16_residue _
  | bin16 =>
    rw [if_neg (by decide), payload, h16]
    exact C.crc16_residue _
  | bin32 =>
    rw [if_pos (show Format.fmt .bin32 = 0x43 from rfl), payload, h32]
    exact C.crc32_residue _

theorem sendhdr_raises (size : Nat) (hs : ∃ sub, s.pstate = .idle sub) (hesc : s.esc = false) (f : Flags) (type : UInt8)
    (buffer : Vector UInt8 4) (format : Format) :
    ∃ pre last post s₁ s₂, sendhdr C false f type buffer format = pre ++ last :: post ∧
      (∀ b ∈ post, b = 0x0d ∨ b = 0x0a ∨ b = 0x11) ∧ run C size s pre = some s₁ ∧
      step C size s₁ last = (s₂, .raise (.header type)) ∧ s₂.ncan = 0 ∧ s₂.hdrfmt = format.fmt ∧
      upto 5 s₂.hdrdata = type :: buffer.toList := by
  obtain ⟨out, post, hsend, hpost, pre, last, s₁, s₂, rfl, hrun, hstep, hncan, hfmt, hdata⟩ :=
    sendhdr_checks C false size hs hesc f type buffer format
  have hok : hdrOk C s₂ = true := by
    have hresidue := payload_residue C type buffer format
    rw [hdrOk, hfmt]
    rw [← hdata] at hresidue
    split_ifs at hresidue with h43
    · rw [hdrLen, if_pos h43] at hresidue
      rw [if_pos h43, hresidue]
      rfl
    · rw [hdrLen, if_neg h43] at hresidue
      rw [if_neg h43, hresidue]
      rfl
  have hfive : upto 5 s₂.hdrdata = type :: buffer.toList := by
    rw [upto_take (n := hdrLen format.fmt) (by rw [hdrLen]; split <;> decide), hdata]
    cases format <;> simp [payload]
  have htype : s₂.hdrdata 0 = type := by
    have := congrArg (·[0]?) hfive
    simpa [upto] using this
  rw [hdrevent, if_pos hok, htype] at hstep
  rw [List.append_assoc] at hsend
  exact ⟨pre, last, post, s₁, _, hsend, hpost, hrun, hstep, hncan, hfmt, hfive⟩

theorem headerSurvives (hs : ∃ sub, s.pstate = .idle sub) (hesc : s.esc = false) :
    HeaderSurvives C false size rcvbufsize s := by
  intro f format type buffer h _ bufs hbufs
  obtain ⟨pre, last, post, s₁, s₂, hsend, hpost, hrun, hstep, -, -, hdata⟩ :=
    sendhdr_raises C size hs hesc f type buffer format
  have hshort := hbufs.short (.inr (length_sendhdr_lt C false f type buffer format))
  obtain ⟨tail, hpump, htail⟩ := pump_of_raise h hrun hstep bufs hshort (hbufs.flatten.trans hsend)
  refine ⟨s₂, tail, hpump, hdata, fun hidle => ?_⟩
  rcases htail with rfl | ⟨rest, hshort, hrest, rfl⟩
  · rfl
  · obtain ⟨s', hquiet⟩ := run_idle C size (hidle (.header type) _) fun b hb => hpost b (hrest b hb)
    exact pump_of_run h rest hshort hquiet

theorem pump_singletons {s₁ s₂ : Parser} {pre : List UInt8} {last : UInt8} {out : Output} (h : Session)
    (hrun : run C size s pre = some s₁) (hstep : step C size s₁ last = (s₂, .raise out)) :
    pump C size h s ((pre ++ [last]).map fun b => [b]) = [(out, s₂)] := by
  have hreads := reads_singletons Nat.one_pos (pre ++ [last])
  exact pump_last C h hrun hstep _ (hreads.short (.inl (by decide))) hreads.flatten

theorem exists_begins (size : Nat) (format : Format) : ∃ d, Begins C size d ∧ d.hdrfmt = format.fmt := by
  obtain ⟨pre, last, post, s₁, s₂, -, -, hrun, hstep, hncan, hfmt, -⟩ :=
    sendhdr_raises C (s := initial) size ⟨_, rfl⟩ rfl ⟨false, false, false⟩ 10 (.replicate 4 0) format
  exact ⟨readstate s₂, ⟨⟨s₁, s₂, last, _, Reachable.init.run hrun, hstep, nofun, _, _, rfl⟩, hncan⟩, hfmt⟩

end

section

variable {big inplace : Bool} {size rcvbufsize : Nat} {s : Parser}

def goOn : Session := fun _ s => (s, 0, false)

def plain : Flags := ⟨false, false, false⟩

def plain32 : Flags := ⟨true, false, false⟩

def controls : Flags := ⟨false, true, false⟩

theorem inplace_of_dataSurvives (C : Crcs) (hs : AtData s) (hsize : 5 ≤ size) (hpos : 0 < rcvbufsize)
    (h : DataSurvives C inplace size rcvbufsize s) : inplace = false := by
  refine Bool.eq_false_iff.mpr fun hin => ?_
  subst hin
  obtain ⟨pre, last, s₁, s₂, hpacket, hrun, hstep, -, hdata⟩ :=
    packet_received C hs plain [0x18, 0x58] hsize (show 2 + 1 + 2 < 2 ^ 16 by decide)
  have hsend : senddata C true plain [0x18, 0x00] = pre ++ [last] := hpacket
  obtain ⟨s₃, hpump, -, hlost⟩ := (h plain [0x18, 0x00] goOn hsize).1 _ (reads_singletons hpos _)
  rw [hsend, pump_singletons C goOn hrun hstep] at hpump
  cases hpump
  exact absurd (hdata.symm.trans hlost) (by decide)

theorem packet_wraps (C : Crcs) (hs : AtData s) (f : Flags) (hle : 2 ^ 16 ≤ size) :
    ∃ data pre last s₁ s₂, data.length + 1 + f.ncrc ≤ size ∧ packet C f data = pre ++ [last] ∧
      run C size { s with hdrfmt := f.fmt } pre = some s₁ ∧ step C size s₁ last = (s₂, .raise .datarcvd) ∧
      s₂.pktlen + (f.ncrc + 1) = 2 ^ 16 ∧
      s₂.crkok = if f.crc32 then C.crc32 [] 0xffffffff == 0xdebb20e3 else C.crc16 [] 0 == 0 := by
  have hncrc : f.ncrc + 1 < 2 ^ 16 := by
    rw [Flags.ncrc]
    split <;> decide
  have hlen : (List.replicate (2 ^ 16 - 1 - f.ncrc) (0x41 : UInt8)).length + 1 + f.ncrc = 2 ^ 16 := by
    rw [List.length_replicate]
    omega
  generalize List.replicate (2 ^ 16 - 1 - f.ncrc) (0x41 : UInt8) = data at hlen
  obtain ⟨pre, last, s₁, s₂, tail, b, hpacket, hrun, hstep, hcrc, hs₂⟩ := packet_run C hs f data (hlen ▸ hle) (by omega)
  obtain ⟨s₃, hstore, -, hpktlen, hcrkok⟩ := hs₂.store_last C b
  have htail : tail.length + 1 = f.ncrc := by
    rw [← length_crcBytes C f data, hcrc, List.length_append, List.length_singleton]
  have hcount : (data ++ [0x6b] ++ tail).length + 1 = 2 ^ 16 := by
    simp only [List.length_append, List.length_singleton]
    omega
  rw [hcount, Nat.mod_self] at hpktlen hcrkok
  exact ⟨data, pre, last, s₁, s₃, hlen ▸ hle, hpacket, hrun, hstep.trans hstore, by omega, hcrkok⟩

theorem size_of_dataSurvives (hs : AtData s) (hpos : 0 < rcvbufsize)
    (h : DataSurvives .library false size rcvbufsize s) : size < 2 ^ 16 := by
  refine Nat.lt_of_not_le fun hle => ?_
  obtain ⟨data, pre, last, s₁, s₂, hfits, hpacket, hrun, hstep, -, hcrkok⟩ := packet_wraps .library hs plain32 hle
  have hsend : senddata .library false plain32 data = pre ++ [last] := hpacket
  obtain ⟨s₃, hpump, hok, -⟩ := (h plain32 data goOn hfits).1 _ (reads_singletons hpos _)
  rw [hsend, pump_singletons .library goOn hrun hstep] at hpump
  cases hpump
  have hnone : (Crcs.library.crc32 [] 0xffffffff == 0xdebb20e3) = true := hcrkok.symm.trans hok
  exact absurd hnone (by decide)

/-- Routines that meet `Crcs`, and give bytes that are escaped with `ZM_FLAG_ESCCTRL`. -/
def Crcs.constant : Crcs where
  crc16 _ _ := 0
  crc32 _ _ := 0xdebb20e3
  crc16_append _ _ _ := rfl
  crc32_append _ _ _ := rfl
  crc16_residue _ := rfl
  crc32_residue _ := rfl

theorem escapeCount_controls {f : Flags} {s : List UInt8} (hf : f.escctrl = true) (hs : ∀ b ∈ s, b &&& 0x7f < 0x20) :
    escapeCount f s = s.length := by
  induction s generalizing f with
  | nil => rfl
  | cons b s ih =>
    obtain ⟨hb, hs⟩ := List.forall_mem_cons.mp hs
    have hescapes : escapes f b = true := by simp [escapes, hf, hb]
    rw [escapeCount, if_pos hescapes, ih (by exact hf) hs, List.length_cons, Nat.add_comm]

theorem after_escctrl (f : Flags) (s : List UInt8) : (after f s).escctrl = f.escctrl := by
  induction s generalizing f with
  | nil => rfl
  | cons b s ih => exact ih _

/-- A packet of 2¹⁵ bytes that are all escaped: read in one piece, its length is 0 for `zm_parse`. -/
theorem rcv_of_dataSurvives (h : DataSurvives .constant false size rcvbufsize s) :
    rcvbufsize < 2 ^ 16 ∨ size < 2 ^ 15 := by
  by_contra hnot
  have hlen : (List.replicate (2 ^ 15 - 3) (0x18 : UInt8)).length = 2 ^ 15 - 3 := List.length_replicate
  have hall : ∀ b ∈ List.replicate (2 ^ 15 - 3) (0x18 : UInt8), b &&& 0x7f < 0x20 := by
    intro b hb
    rw [List.eq_of_mem_replicate hb]
    decide
  generalize List.replicate (2 ^ 15 - 3) (0x18 : UInt8) = data at hlen hall
  have hfits : data.length + 1 + controls.ncrc ≤ size := by
    rw [hlen, show controls.ncrc = 2 from rfl]
    omega
  have hpacket : (senddata .constant false controls data).length = 2 ^ 16 := by
    have hcrc : crcBytes .constant controls data = [0, 0] := by
      rw [crcBytes, if_neg (by decide), List.foldl_append]
      exact (by decide : be16 0 = [0, 0])
    have hdata : escapeCount controls data = data.length := escapeCount_controls rfl hall
    have htail : escapeCount (after controls data) [0, 0] = 2 :=
      escapeCount_controls (after_escctrl controls data) (by simp)
    have hsend : senddata .constant false controls data = packet .constant controls data := rfl
    rw [hsend, packet, hcrc, List.length_append, List.length_append, length_encode, length_encode, hdata, htail, hlen]
    decide
  obtain ⟨s₁, hpump, -⟩ := (h controls data goOn hfits).1 [senddata .constant false controls data]
    ⟨List.flatten_singleton, by simp [hpacket]; omega⟩
  rw [pump, received, hpacket, Nat.mod_self, List.take_zero] at hpump
  cases hpump

theorem big_of_headerSurvives (hs : ∃ sub, s.pstate = .idle sub) (hesc : s.esc = false) (hpos : 0 < rcvbufsize)
    (h : HeaderSurvives .library big size rcvbufsize s) : big = false := by
  refine Bool.eq_false_iff.mpr fun hbig => ?_
  subst hbig
  obtain ⟨out, post, hsend, -, pre, last, s₁, s₂, rfl, hrun, hstep, -, hfmt, hdata⟩ :=
    sendhdr_checks .library true size hs hesc plain 1 (.replicate 4 0) .bin16
  have hbad : hdrOk .library s₂ = false := by
    rw [hdrOk, hfmt, if_neg (by decide)]
    rw [show hdrLen (Format.fmt .bin16) = 7 from rfl] at hdata
    rw [hdata]
    decide +kernel
  rw [hdrevent, hbad] at hstep
  have hreads := reads_singletons hpos (sendhdr .library true plain 1 (.replicate 4 0) .bin16)
  obtain ⟨s₃, tail, hpump, -⟩ := h plain .bin16 1 (.replicate 4 0) goOn (by decide) _ hreads
  have hshort := hreads.short (.inr (length_sendhdr_lt ..))
  have hflatten := hreads.flatten.trans hsend
  rw [List.append_assoc, List.singleton_append] at hflatten
  obtain ⟨tail', hnak, -⟩ := pump_of_raise goOn hrun hstep _ hshort hflatten
  rw [hnak] at hpump
  cases hpump

end

/-- Frames survive encoding, for all CRC routines with the residue property, just on a little-endian target, for data
that is not in `scratch`, with a packet buffer of less than 2¹⁶ bytes, and with a receive buffer of less than 2¹⁶ bytes
or no packet that fills one. -/
theorem frames_survive_iff (big inplace : Bool) (pktbufsize rcvbufsize : Nat) (hpos : 0 < rcvbufsize) :
    (∀ C, (∀ d, Begins C (pktbufsize + 5) d → DataSurvives C inplace (pktbufsize + 5) rcvbufsize d) ∧
      ∀ i, Reachable C (pktbufsize + 5) i → (∃ sub, i.pstate = .idle sub) →
        HeaderSurvives C big (pktbufsize + 5) rcvbufsize i) ↔
      big = false ∧ inplace = false ∧ pktbufsize + 5 < 2 ^ 16 ∧ (rcvbufsize < 2 ^ 16 ∨ pktbufsize + 5 < 2 ^ 15) := by
  constructor
  · intro h
    obtain ⟨hdata, hheader⟩ := h .library
    obtain ⟨d, hd, -⟩ := exists_begins .library (pktbufsize + 5) .hex
    have hsurvives := hdata d hd
    obtain rfl := inplace_of_dataSurvives .library hd.atData (Nat.le_add_left 5 pktbufsize) hpos hsurvives
    obtain ⟨d', hd', -⟩ := exists_begins .constant (pktbufsize + 5) .hex
    exact ⟨big_of_headerSurvives ⟨_, rfl⟩ rfl hpos (hheader initial .init ⟨_, rfl⟩), rfl,
      size_of_dataSurvives hd.atData hpos hsurvives, rcv_of_dataSurvives ((h .constant).1 d' hd')⟩
  · rintro ⟨rfl, rfl, hlt, hrcv⟩ C
    refine ⟨fun d hd => dataSurvives C hd.atData hlt hrcv, fun i hi hidle => headerSurvives C hidle ?_⟩
    obtain ⟨sub, hsub⟩ := hidle
    exact hi.unescaped sub hsub

theorem frames_survive_iff_host : (∃ d, Begins .library 517 d ∧ DataSurvives .library false 517 512 d) ∧
    HeaderSurvives .library false 517 512 initial := by
  have h := (frames_survive_iff false false 512 512 (by decide)).mpr ⟨rfl, rfl, by decide, .inl (by decide)⟩
  obtain ⟨d, hd, -⟩ := exists_begins .library 517 .hex
  exact ⟨⟨d, hd, (h .library).1 d hd⟩, (h .library).2 initial .init ⟨_, rfl⟩⟩

def waitsForName : Session := fun out s => if out = .header 4 then (readstate s, 0, false) else (s, 0, false)

/-- `zms_sendfilename` sends `a` of 1 byte from `scratch`, with control characters escaped: `@@@@` arrives for the
length. On a big-endian target, the receiver refuses `ZRINIT`. -/
theorem filename_garbled :
    (pump .library 517 waitsForName initial
        [sendhdr .library false ⟨false, true, false⟩ 4 (.replicate 4 0) .bin16 ++
          senddata .library true ⟨false, true, false⟩ [0x61, 0x00, 0x31, 0x20, 0x30, 0x00]]).map
        (fun (out, s) => (out, s.crkok, upto s.pktlen s.pktbuf)) =
      [(.header 4, false, []), (.datarcvd, true, [0x61, 0x00, 0x40, 0x40, 0x40, 0x40])] ∧
    (pump .library 517 goOn initial [sendhdr .library true plain 1 (.replicate 4 0) .hex]).map Prod.fst = [.nak] := by
  decide +kernel

end NuttxApps.Zmodem
