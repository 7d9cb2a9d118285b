import NuttxApps.Zmodem.RoundTrip

/-!
# The indices of the ZMODEM parser

`hdrndx` counts the bytes in `hdrdata`, which has room for nine, and `pktlen` those in `pktbuf`. It stays in bounds just
if the packet buffer is not longer than its 16 bits can count (`inBounds_iff`).
-/

namespace NuttxApps.Zmodem

def trailer (fmt : UInt8) : Nat := if fmt = 0x43 then 5 else 3

/-- `hdrndx` is an index into `hdrdata`, `pktlen` at most the length of `pktbuf`, and a received packet had at least its
type and its CRC. -/
def InBounds (C : Crcs) (size : Nat) : Prop :=
  ∀ s, Reachable C size s → s.hdrndx < 9 ∧ s.pktlen ≤ size ∧
    ∀ ch s₁ out, step C size s ch = (s₁, .raise out) → s₁.hdrndx < 9 ∧ s₁.pktlen ≤ size ∧
      (out = .datarcvd → s₁.pktlen + trailer s₁.hdrfmt = (s.pktlen + 1) % 2 ^ 16)

/-- Within a data packet, what has been counted and what is still to come cover the type and the CRC. -/
structure Covered (size : Nat) (s : Parser) : Prop where
  hdrndx : s.hdrndx < 9
  pktlen : s.pktlen ≤ size
  ncrc : ∀ sub, s.pstate = .data sub → s.ncrc ≠ 0 → trailer s.hdrfmt ≤ s.pktlen + s.ncrc

section

variable {C : Crcs} {size : Nat} {s s' : Parser}

theorem Covered.outside (hndx : s.hdrndx < 9) (hlen : s.pktlen ≤ size) (hstate : ∀ sub, s.pstate ≠ .data sub) :
    Covered size s :=
  ⟨hndx, hlen, fun sub hsub => absurd hsub (hstate sub)⟩

theorem Covered.idle (h : Covered size s) (ch : UInt8) : Covered size (Zmodem.idle s ch).1 := by
  simp only [Zmodem.idle, idleO]
  split_ifs <;> exact .outside h.hdrndx h.pktlen (by simp)

theorem Covered.hdrevent (h : Covered size s) (C : Crcs) : Covered size (Zmodem.hdrevent C s).1 := by
  simp only [Zmodem.hdrevent, nakhdr]
  split_ifs <;> exact .outside h.hdrndx h.pktlen (by simp)

section

variable (h : Covered size s) (C : Crcs) {sub : HeaderState} (hsub : s.pstate = .header sub) (ch : UInt8)

include h hsub

theorem Covered.headerSwitch : Covered size (Zmodem.headerSwitch C sub s ch).1 := by
  have hkeep : ∀ data, Covered size { s with hdrdata := data } := fun _ => ⟨h.hdrndx, h.pktlen, h.ncrc⟩
  cases sub <;> simp only [Zmodem.headerSwitch, nakhdr] <;> split_ifs
  -- the format
  · exact .outside (Nat.zero_lt_succ 8) h.pktlen (by simp)
  · exact .outside h.hdrndx h.pktlen (by simp)
  -- the payload, and the second digit of a byte
  · exact .outside h.hdrndx h.pktlen (by simp)
  · exact .outside h.hdrndx h.pktlen (by simp)
  · exact (hkeep _).hdrevent C
  · exact .outside (show s.hdrndx + 1 < 9 by omega) h.pktlen (by simp)
  · exact h
  · exact (hkeep _).hdrevent C
  · exact .outside (show s.hdrndx + 1 < 9 by omega) h.pktlen (by simp)
  · exact .outside h.hdrndx h.pktlen (by simp)

theorem Covered.header : Covered size (Zmodem.header C sub s ch).1 := by
  have hesc : ∀ esc, Covered size { s with esc := esc } := fun _ => ⟨h.hdrndx, h.pktlen, h.ncrc⟩
  rw [Zmodem.header]
  split_ifs
  · exact hesc true
  · exact (hesc false).headerSwitch C hsub _
  · exact h.headerSwitch C hsub ch

end

structure Stored (size n : Nat) (p : Parser × Result) : Prop where
  covered : Covered size p.1
  removed : p.2 = .raise .datarcvd → p.1.pktlen + trailer p.1.hdrfmt = (n + 1) % 2 ^ 16

theorem stored_dataevent (C : Crcs) (hndx : s.hdrndx < 9) (hlen : s.pktlen ≤ size) (hsize : size < 2 ^ 16)
    (hcovered : trailer s.hdrfmt ≤ s.pktlen) :
    Covered size (dataevent C s).1 ∧ (dataevent C s).1.pktlen + trailer (dataevent C s).1.hdrfmt = s.pktlen := by
  rw [dataevent]
  simp only [trailer] at hcovered ⊢
  split_ifs at hcovered ⊢ with hfmt <;> refine ⟨.outside hndx ?_ (by simp), ?_⟩ <;> dsimp only
  all_goals omega

section

variable (h : Covered size s) (C : Crcs) (hsub : ∃ sub, s.pstate = .data sub)

include h hsub

theorem Covered.dataStore (hroom : s.pktlen < size)
    (hsize : size < 2 ^ 16) (ch : UInt8) : Stored size s.pktlen (Zmodem.dataStore C s ch) := by
  obtain ⟨sub, hsub⟩ := hsub
  have hmod : (s.pktlen + 1) % 2 ^ 16 = s.pktlen + 1 := Nat.mod_eq_of_lt (by omega)
  have hncrc := h.ncrc sub hsub
  rw [Zmodem.dataStore, hmod]
  dsimp only
  split_ifs with hlast hmore
  · have hevent := stored_dataevent C (s := { s with pktbuf := store s.pktbuf s.pktlen ch, pktlen := s.pktlen + 1 })
      h.hdrndx hroom hsize (show trailer s.hdrfmt ≤ s.pktlen + 1 by omega)
    exact ⟨hevent.1, fun _ => hevent.2.trans hmod.symm⟩
  · refine ⟨⟨h.hdrndx, hroom, fun _ _ _ => ?_⟩, by simp⟩
    show trailer s.hdrfmt ≤ s.pktlen + 1 + (s.ncrc - 1)
    omega
  · exact ⟨⟨h.hdrndx, hroom, fun _ _ hne => absurd (show s.ncrc = 0 by omega) hne⟩, by simp⟩

theorem Covered.data (hsize : size < 2 ^ 16) (ch : UInt8) : Stored size s.pktlen (Zmodem.data C size s ch) := by
  have hesc : ∀ esc, Covered size { s with esc := esc } := fun _ => ⟨h.hdrndx, h.pktlen, h.ncrc⟩
  rw [Zmodem.data]
  split
  · exact ⟨hesc true, by simp⟩
  · split
    · exact ⟨h, by simp⟩
    · rename_i hfull
      have hroom : s.pktlen < size := Nat.lt_of_not_le hfull
      split
      · split
        · -- what is still to come covers the type and the CRC alone
          have hterm : Covered size { s with
              pkttype := ch, pstate := .data .crc, ncrc := if s.hdrfmt = 0x43 then 5 else 3, esc := false } :=
            ⟨h.hdrndx, h.pktlen, fun _ _ _ => Nat.le_add_left ..⟩
          exact hterm.dataStore C ⟨_, rfl⟩ hroom hsize ch
        · exact (hesc false).dataStore C hsub hroom hsize _
      · exact h.dataStore C hsub hroom hsize ch

end

theorem idle_ne_datarcvd (s : Parser) (ch : UInt8) : (Zmodem.idle s ch).2 ≠ .raise .datarcvd := by
  simp only [Zmodem.idle, idleO]
  split_ifs <;> simp

theorem hdrevent_ne_datarcvd (C : Crcs) (s : Parser) : (Zmodem.hdrevent C s).2 ≠ .raise .datarcvd := by
  simp only [Zmodem.hdrevent, nakhdr]
  split_ifs <;> simp

theorem header_ne_datarcvd (C : Crcs) (sub : HeaderState) (s : Parser) (ch : UInt8) :
    (Zmodem.header C sub s ch).2 ≠ .raise .datarcvd := by
  have hswitch : ∀ s ch, (Zmodem.headerSwitch C sub s ch).2 ≠ .raise .datarcvd := by
    intro s ch
    cases sub <;> simp only [Zmodem.headerSwitch, nakhdr] <;> split_ifs <;>
      first | exact hdrevent_ne_datarcvd C _ | simp
  rw [Zmodem.header]
  split_ifs
  · simp
  · exact hswitch _ _
  · exact hswitch _ _

theorem Covered.step (h : Covered size s) (hsize : size < 2 ^ 16) {ch : UInt8} {p : Parser × Result}
    (hstep : Zmodem.step C size s ch = p) : Stored size s.pktlen p := by
  rw [← hstep, Zmodem.step]
  generalize (if ch = 0x18 then (s.ncan + 1) % 2 ^ 8 else 0) = ncan
  have hs : Covered size { s with ncan := ncan } := ⟨h.hdrndx, h.pktlen, h.ncrc⟩
  split
  · exact ⟨hs, by simp⟩
  · split
    · exact ⟨hs, by simp⟩
    · rw [dispatch]
      split
      · exact ⟨hs.idle ch, fun hraise => absurd hraise (idle_ne_datarcvd _ ch)⟩
      · rename_i sub hsub
        exact ⟨hs.header C hsub ch, fun hraise => absurd hraise (header_ne_datarcvd C sub _ ch)⟩
      · rename_i sub hsub
        exact hs.data C ⟨sub, hsub⟩ hsize ch

theorem Covered.keeps (h : Covered size s) (hkeeps : Keeps s s') : Covered size s' := by
  obtain ⟨oo, pktbuf, rfl⟩ := hkeeps
  exact ⟨h.hdrndx, h.pktlen, h.ncrc⟩

theorem Covered.acts (h : Covered size s) (hacts : Acts s s') : Covered size s' := by
  have hidle : Covered size { s with pstate := .idle .zpad } := .outside h.hdrndx h.pktlen (by simp)
  have hread : Covered size (readstate s) := ⟨h.hdrndx, Nat.zero_le size, fun _ _ hne => absurd rfl hne⟩
  rcases hacts with hacts | hacts | hacts
  · exact h.keeps hacts
  · exact hidle.keeps hacts
  · exact hread.keeps hacts

theorem Covered.afterEvent (h : Covered size s) (out : Output) :
    Covered size (Zmodem.afterEvent out (s, 0, false)).1 := by
  cases out with
  | datarcvd => exact ⟨h.hdrndx, Nat.zero_le size, fun _ _ hne => absurd rfl hne⟩
  | header type => exact h
  | oo => exact h
  | cancel => exact h
  | nak => exact h

theorem Reachable.covered (h : Reachable C size s) (hsize : size < 2 ^ 16) : Covered size s := by
  induction h with
  | init => exact .outside (Nat.zero_lt_succ 8) (Nat.zero_le size) (by simp [initial])
  | ok _ hstep ih => exact (ih.step hsize hstep).covered
  | error _ hstep ih => exact (ih.step hsize hstep).covered
  | event _ hstep hout hacts ih => exact ((ih.step hsize hstep).covered.acts hacts).afterEvent _
  | cancel _ hstep hkeeps ih => exact (ih.step hsize hstep).covered.keeps hkeeps
  | timeout _ hkeeps ih => exact ih.keeps hkeeps

theorem Begins.reachable (h : Begins C size s) : Reachable C size s := by
  obtain ⟨⟨s₀, s₁, ch, out, hs₀, hstep, hout, hkeeps⟩, -⟩ := h
  have hafter : (Zmodem.afterEvent out (s, 0, false)).1 = s := by
    obtain ⟨oo, pktbuf, rfl⟩ := hkeeps
    cases out <;> rfl
  exact hafter ▸ hs₀.event hstep hout (.inr (.inr hkeeps))

end

/-- With a packet buffer of 2¹⁶ bytes or more, `pktlen` comes around to 0, and the type and the CRC cannot be taken from
that. -/
theorem not_inBounds (C : Crcs) {size : Nat} (hle : 2 ^ 16 ≤ size) : ¬ InBounds C size := by
  intro h
  obtain ⟨d, hd, hfmt⟩ := exists_begins C size .bin16
  obtain ⟨data, pre, last, s₁, s₂, -, -, hrun, hstep, hpktlen, -⟩ := packet_wraps C hd.atData plain hle
  have hself : { d with hdrfmt := plain.fmt } = d := by
    rw [show plain.fmt = d.hdrfmt from hfmt.symm]
  rw [hself] at hrun
  obtain ⟨-, -, hraise⟩ := h s₁ (hd.reachable.run hrun)
  have hremoved := (hraise last s₂ .datarcvd hstep).2.2 rfl
  have htrailer : 3 ≤ trailer s₂.hdrfmt := by
    rw [trailer]
    split <;> decide
  rw [show plain.ncrc = 2 from rfl] at hpktlen
  omega

/-- The indices stay in bounds, with any actions, just if the packet buffer has less than 2¹⁶ bytes. -/
theorem inBounds_iff (C : Crcs) (pktbufsize : Nat) : InBounds C (pktbufsize + 5) ↔ pktbufsize + 5 < 2 ^ 16 := by
  refine ⟨fun h => Nat.lt_of_not_le fun hle => not_inBounds C hle h, fun hsize s hs => ?_⟩
  have hcovered := hs.covered hsize
  refine ⟨hcovered.hdrndx, hcovered.pktlen, fun ch s₁ out hstep => ?_⟩
  have hstored := hcovered.step hsize hstep
  exact ⟨hstored.covered.hdrndx, hstored.covered.pktlen, fun hout => hstored.removed (hout ▸ rfl)⟩

theorem not_inBounds_65536 : ¬ InBounds .library (65531 + 5) := not_inBounds .library .refl

end NuttxApps.Zmodem
