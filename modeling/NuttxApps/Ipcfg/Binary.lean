import NuttxApps.Framework.Bytes

/-!
# IP configuration files, binary

A record of the IPv4 configuration and one of the IPv6 configuration, each behind a header that says how far the next
header is. `image` is the file for a pair of configurations: reading it gives them back, and a write leaves the image of
the new pair.
-/

namespace NuttxApps.Ipcfg

open Bytes List

inductive Errno
  | enoent
  | eio
  | einval
deriving DecidableEq, Repr

structure Ipv4cfg where
  (proto ipaddr netmask router dnsaddr : UInt32)
deriving DecidableEq, Repr

structure In6Addr where
  (w0 w1 w2 w3 : UInt32)
deriving DecidableEq, Repr

structure Ipv6cfg where
  proto : UInt32
  (ipaddr netmask router : In6Addr)
deriving DecidableEq, Repr

inductive Family
  | inet
  | inet6
deriving DecidableEq, Repr

def Family.code : Family → Nat
  | .inet => 2
  | .inet6 => 10

variable (big : Bool) (ws : List UInt32)

def wordsImage : List UInt8 := ws.flatMap fun w => store big 4 w.toNat

def wordsOf (big : Bool) : Nat → List UInt8 → List UInt32
  | 0, _ => []
  | n + 1, bs => .ofNat (load big (bs.take 4)) :: wordsOf big n (bs.drop 4)

theorem length_wordsImage : (wordsImage big ws).length = 4 * ws.length := by
  induction ws with
  | nil => rfl
  | cons w ws ih =>
    simp only [wordsImage, flatMap_cons, length_append, length_store, length_cons] at ih ⊢
    omega

theorem wordsOf_wordsImage : wordsOf big ws.length (wordsImage big ws) = ws := by
  induction ws with
  | nil => rfl
  | cons w ws ih =>
    have hw : w.toNat < 256 ^ 4 := w.toNat_lt
    rw [length_cons, wordsOf, wordsImage, flatMap_cons, take_left' (length_store ..),
      drop_left' (length_store ..), load_store big hw, UInt32.ofNat_toNat]
    exact congrArg (w :: ·) ih

def Ipv4cfg.words (c : Ipv4cfg) : List UInt32 := [c.proto, c.ipaddr, c.netmask, c.router, c.dnsaddr]

def Ipv4cfg.ofWords : List UInt32 → Ipv4cfg
  | [p, i, n, r, d] => ⟨p, i, n, r, d⟩
  | _ => ⟨0, 0, 0, 0, 0⟩

def In6Addr.words (a : In6Addr) : List UInt32 := [a.w0, a.w1, a.w2, a.w3]

def Ipv6cfg.words (c : Ipv6cfg) : List UInt32 := c.proto :: (c.ipaddr.words ++ (c.netmask.words ++ c.router.words))

def Ipv6cfg.ofWords : List UInt32 → Ipv6cfg
  | [p, i0, i1, i2, i3, n0, n1, n2, n3, r0, r1, r2, r3] => ⟨p, ⟨i0, i1, i2, i3⟩, ⟨n0, n1, n2, n3⟩, ⟨r0, r1, r2, r3⟩⟩
  | _ => ⟨0, ⟨0, 0, 0, 0⟩, ⟨0, 0, 0, 0⟩, ⟨0, 0, 0, 0⟩⟩

def headerSize : Nat := 4

def ipv4Size : Nat := 20

def ipv6Size : Nat := 52

def header (next : Nat) (type : Family) : List UInt8 :=
  UInt8.ofNat next :: 1 :: store big 2 type.code

/-- `ipcfg_read_binary`: the bytes that were asked for and the rest of the file. -/
def readN (file : List UInt8) (nbytes : Nat) : Except Errno (List UInt8 × List UInt8) :=
  if file.length < nbytes then .error .eio else .ok (file.take nbytes, file.drop nbytes)

/-- `ipcfg_find_binary`, with fuel for the headers: the rest of the file behind the header of the family. -/
def findBinary (big : Bool) (af : Family) : Nat → List UInt8 → Except Errno (List UInt8)
  | 0, _ => .error .eio
  | fuel + 1, file => do
    let (hdr, rest) ← readN file headerSize
    let next := (hdr.getD 0 0).toNat
    let version := hdr.getD 1 0
    let type := load big (hdr.drop 2)
    if version = 1 ∧ type = af.code then .ok rest
    else if version ≠ 1 ∨ (type ≠ Family.code .inet ∧ type ≠ Family.code .inet6) then .error .einval
    else if next = 0 then .error .enoent
    -- `lseek(fd, hdr.next, SEEK_CUR)`
    else findBinary big af fuel (rest.drop next)

variable (file : Option (List UInt8))

def readBinaryIpv4 : Except Errno Ipv4cfg :=
  match file with
  | none => .error .enoent
  | some file => do
    let rest ← findBinary big .inet (file.length + 1) file
    let (bs, _) ← readN rest ipv4Size
    .ok (Ipv4cfg.ofWords (wordsOf big 5 bs))

def readBinaryIpv6 : Except Errno Ipv6cfg :=
  match file with
  | none => .error .enoent
  | some file => do
    let rest ← findBinary big .inet6 (file.length + 1) file
    let (bs, _) ← readN rest ipv6Size
    .ok (Ipv6cfg.ofWords (wordsOf big 13 bs))

/-- What a write keeps of the other family: `-ENOENT` is no error. -/
def keep {α : Type} (r : Except Errno α) : Except Errno (Option α) :=
  match r with
  | .ok a => .ok (some a)
  | .error .enoent => .ok none
  | .error e => .error e

def ipv6Record (c : Ipv6cfg) : List UInt8 := header big 0 .inet6 ++ wordsImage big c.words

def writeBinaryIpv4 (c : Ipv4cfg) : Except Errno (List UInt8) := do
  let ipv6 ← keep (readBinaryIpv6 big file)
  .ok (header big (if ipv6.isSome then ipv4Size else 0) .inet ++ wordsImage big c.words ++
    ipv6.elim [] (ipv6Record big))

def writeBinaryIpv6 (c : Ipv6cfg) : Except Errno (List UInt8) := do
  let ipv4 ← keep (readBinaryIpv4 big file)
  .ok (ipv4.elim [] (fun c4 => header big ipv4Size .inet ++ wordsImage big c4.words) ++ ipv6Record big c)

def image (v4 : Option Ipv4cfg) (v6 : Option Ipv6cfg) : Option (List UInt8) :=
  match v4, v6 with
  | none, none => none
  | some c, none => some (header big 0 .inet ++ wordsImage big c.words)
  | none, some c => some (ipv6Record big c)
  | some c4, some c6 => some (header big ipv4Size .inet ++ wordsImage big c4.words ++ ipv6Record big c6)

variable (big : Bool)

theorem readN_append {a : List UInt8} {n : Nat} (ha : a.length = n) (b : List UInt8) :
    readN (a ++ b) n = .ok (a, b) := by
  rw [readN, take_left' ha, drop_left' ha, if_neg (by simp; omega)]

theorem Family.code_inj {f g : Family} : f.code = g.code ↔ f = g := by
  cases f <;> cases g <;> decide

theorem findBinary_header (af type : Family) {next : Nat} (hnext : next < 256) (fuel : Nat) (rest : List UInt8) :
    findBinary big af (fuel + 1) (header big next type ++ rest) =
      if type = af then .ok rest else if next = 0 then .error .enoent else findBinary big af fuel (rest.drop next) := by
  have hlength : (header big next type).length = headerSize := by simp [header, headerSize]
  have htype : load big ((header big next type).drop 2) = type.code := load_store big (by cases type <;> decide)
  have hcode : (header big next type).getD 0 0 = UInt8.ofNat next := rfl
  have hfamily : ¬(type ≠ .inet ∧ type ≠ .inet6) := by cases type <;> simp
  rw [findBinary, readN_append hlength]
  simp only [bind, Except.bind, htype, hcode, show (header big next type).getD 1 0 = 1 from rfl, true_and,
    Family.code_inj, ne_eq, not_true_eq_false, false_or, UInt8.toNat_ofNat', Nat.mod_eq_of_lt hnext]
  rw [if_neg hfamily]

theorem ofWords_words4 (c : Ipv4cfg) : Ipv4cfg.ofWords (wordsOf big 5 (wordsImage big c.words)) = c := by
  rw [show 5 = c.words.length from rfl, wordsOf_wordsImage]
  rfl

theorem ofWords_words6 (c : Ipv6cfg) : Ipv6cfg.ofWords (wordsOf big 13 (wordsImage big c.words)) = c := by
  rw [show 13 = c.words.length from rfl, wordsOf_wordsImage]
  rfl

def found {α : Type} (o : Option α) : Except Errno α := o.elim (.error .enoent) .ok

theorem length_words4 (c : Ipv4cfg) : (wordsImage big c.words).length = ipv4Size := length_wordsImage big _

theorem length_words6 (c : Ipv6cfg) : (wordsImage big c.words).length = ipv6Size := length_wordsImage big _

theorem readBinaryIpv4_image (v4 : Option Ipv4cfg) (v6 : Option Ipv6cfg) :
    readBinaryIpv4 big (image big v4 v6) = found v4 := by
  cases v4 with
  | none =>
    cases v6 with
    | none => rfl
    | some c6 =>
      simp only [image, readBinaryIpv4, ipv6Record, findBinary_header big .inet .inet6 (show 0 < 256 by decide)]
      rfl
  | some c4 =>
    cases v6 with
    | none =>
      have h : readN (wordsImage big c4.words) ipv4Size = .ok (wordsImage big c4.words, []) := by
        simpa using readN_append (length_words4 big c4) []
      simp only [image, readBinaryIpv4, findBinary_header big .inet .inet (show 0 < 256 by decide), if_true, bind,
        Except.bind, h, ofWords_words4]
      rfl
    | some c6 =>
      simp only [image, readBinaryIpv4, append_assoc,
        findBinary_header big .inet .inet (show ipv4Size < 256 by decide), if_true, bind, Except.bind,
        readN_append (length_words4 big c4), ofWords_words4]
      rfl

theorem readBinaryIpv6_image (v4 : Option Ipv4cfg) (v6 : Option Ipv6cfg) :
    readBinaryIpv6 big (image big v4 v6) = found v6 := by
  cases v6 with
  | none =>
    cases v4 with
    | none => rfl
    | some c4 =>
      simp only [image, readBinaryIpv6, findBinary_header big .inet6 .inet (show 0 < 256 by decide)]
      rfl
  | some c6 =>
    have h : readN (wordsImage big c6.words) ipv6Size = .ok (wordsImage big c6.words, []) := by
      simpa using readN_append (length_words6 big c6) []
    cases v4 with
    | none =>
      simp only [image, readBinaryIpv6, ipv6Record, findBinary_header big .inet6 .inet6 (show 0 < 256 by decide),
        if_true, bind, Except.bind, h, ofWords_words6]
      rfl
    | some c4 =>
      have hlength : (header big ipv4Size .inet ++ (wordsImage big c4.words ++ ipv6Record big c6)).length + 1 =
          79 + 1 + 1 := by
        simp [header, ipv6Record, length_words4, length_words6, ipv4Size, ipv6Size]
      simp only [image, readBinaryIpv6, append_assoc, hlength]
      rw [findBinary_header big .inet6 .inet (show ipv4Size < 256 by decide), if_neg (by decide), if_neg (by decide),
        drop_left' (length_words4 big c4), ipv6Record, findBinary_header big .inet6 .inet6 (by decide), if_pos rfl]
      simp only [bind, Except.bind, h, ofWords_words6]
      rfl

theorem keep_found {α : Type} (o : Option α) : keep (found o) = .ok o := by
  cases o <;> rfl

theorem writeBinaryIpv4_image (v4 : Option Ipv4cfg) (v6 : Option Ipv6cfg) (c : Ipv4cfg) :
    (writeBinaryIpv4 big (image big v4 v6) c).map some = .ok (image big (some c) v6) := by
  rw [writeBinaryIpv4, readBinaryIpv6_image, keep_found]
  cases v6 with
  | none => simp [bind, Except.bind, Except.map, image]
  | some c6 => rfl

theorem writeBinaryIpv6_image (v4 : Option Ipv4cfg) (v6 : Option Ipv6cfg) (c : Ipv6cfg) :
    (writeBinaryIpv6 big (image big v4 v6) c).map some = .ok (image big v4 (some c)) := by
  rw [writeBinaryIpv6, readBinaryIpv4_image, keep_found]
  cases v4 <;> rfl

end NuttxApps.Ipcfg
