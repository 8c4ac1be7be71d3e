import GolangBasics.Runes

/-! `encoding/base64` without padding, `encoding/hex` and `crypto/sha256`. -/
namespace GolangBasics
open List Option

def sextet (b : UInt8) : Option Nat :=
  if 0x41 ≤ b ∧ b ≤ 0x5A then some (b.toNat - 0x41)
  else if 0x61 ≤ b ∧ b ≤ 0x7A then some (b.toNat - 0x61 + 26)
  else if 0x30 ≤ b ∧ b ≤ 0x39 then some (b.toNat - 0x30 + 52)
  else if b = 0x2D then some 62
  else if b = 0x5F then some 63
  else none

/-- The bits that are left over at the end are not looked at. -/
def ofSextets : List Nat → Option Bytes
  | [] => some []
  | [_] => none
  | [a, b] => some [UInt8.ofNat (a * 4 + b / 16)]
  | [a, b, c] => some [UInt8.ofNat (a * 4 + b / 16), UInt8.ofNat (b % 16 * 16 + c / 4)]
  | a :: b :: c :: d :: rest => do
    let bytes ← ofSextets rest
    some (UInt8.ofNat (a * 4 + b / 16) :: UInt8.ofNat (b % 16 * 16 + c / 4) ::
      UInt8.ofNat (c % 4 * 64 + d) :: bytes)

/-- `base64.RawURLEncoding.DecodeString`, which skips line breaks. -/
def rawURLDecode (s : Bytes) : Option Bytes :=
  ((s.filter fun b => b ≠ 0x0A ∧ b ≠ 0x0D).mapM sextet).bind ofSextets

def base64Digit (n : Nat) : UInt8 :=
  if n < 26 then UInt8.ofNat (0x41 + n)
  else if n < 52 then UInt8.ofNat (0x61 + (n - 26))
  else if n < 62 then UInt8.ofNat (0x30 + (n - 52))
  else if n = 62 then 0x2D
  else 0x5F

/-- Three bytes in four digits; the last digits of a rest are filled up with zero bits. -/
def toSextets : Bytes → List Nat
  | [] => []
  | [a] => [a.toNat / 4, a.toNat % 4 * 16]
  | [a, b] => [a.toNat / 4, a.toNat % 4 * 16 + b.toNat / 16, b.toNat % 16 * 4]
  | a :: b :: c :: rest =>
    a.toNat / 4 :: (a.toNat % 4 * 16 + b.toNat / 16) :: (b.toNat % 16 * 4 + c.toNat / 64) ::
      c.toNat % 64 :: toSextets rest

def rawURLEncode (s : Bytes) : Bytes := (toSextets s).map base64Digit

/-- The bits of the last digit that belong to no byte. -/
def spareBits : List Nat → Nat
  | [_, b] => b % 16
  | [_, _, c] => c % 4
  | _ :: _ :: _ :: _ :: rest => spareBits rest
  | _ => 0

theorem sextet_base64Digit {n : Nat} (h : n < 64) : sextet (base64Digit n) = some n := by
  have hall : ∀ n < 64, sextet (base64Digit n) = some n := by decide
  exact hall n h

theorem toSextets_lt (s : Bytes) : ∀ n ∈ toSextets s, n < 64 := by
  induction s using toSextets.induct with
  | case1 => simp [toSextets]
  | case2 a =>
    have ha := a.toNat_lt
    simp only [toSextets, mem_cons, not_mem_nil, or_false]
    omega
  | case3 a b =>
    have ha := a.toNat_lt
    have hb := b.toNat_lt
    simp only [toSextets, mem_cons, not_mem_nil, or_false]
    omega
  | case4 a b c rest ih =>
    have ha := a.toNat_lt
    have hb := b.toNat_lt
    have hc := c.toNat_lt
    simp only [toSextets, forall_mem_cons]
    exact ⟨by omega, by omega, by omega, by omega, ih⟩

theorem spareBits_toSextets (s : Bytes) : spareBits (toSextets s) = 0 := by
  induction s using toSextets.induct with
  | case1 => rfl
  | case2 a =>
    simp only [toSextets, spareBits]
    omega
  | case3 a b =>
    simp only [toSextets, spareBits]
    omega
  | case4 a b c rest ih => exact ih

theorem ofSextets_toSextets (s : Bytes) : ofSextets (toSextets s) = some s := by
  induction s using toSextets.induct with
  | case1 => rfl
  | case2 a =>
    unfold toSextets ofSextets
    rw [ofNat_eq (b := a) (by omega)]
  | case3 a b =>
    have hb := b.toNat_lt
    unfold toSextets ofSextets
    rw [ofNat_eq (b := a) (by omega), ofNat_eq (b := b) (by omega)]
  | case4 a b c rest ih =>
    have hb := b.toNat_lt
    have hc := c.toNat_lt
    unfold toSextets ofSextets
    rw [ih, ofNat_eq (b := a) (by omega), ofNat_eq (b := b) (by omega),
      ofNat_eq (b := c) (by omega)]
    rfl

variable {ns : List Nat}

theorem toSextets_ofSextets {s : Bytes} (h : ofSextets ns = some s) (hlt : ∀ n ∈ ns, n < 64)
    (hspare : spareBits ns = 0) : toSextets s = ns := by
  have htoNat {n : Nat} (hn : n < 256) : (UInt8.ofNat n).toNat = n := UInt8.toNat_ofNat_of_lt' hn
  induction ns using ofSextets.induct generalizing s with
  | case1 =>
    cases h
    rfl
  | case2 => cases h
  | case3 a b =>
    simp only [forall_mem_cons] at hlt
    cases h
    unfold spareBits at hspare
    unfold toSextets
    rw [htoNat (by omega)]
    simp only [List.cons.injEq, and_true]
    omega
  | case4 a b c =>
    simp only [forall_mem_cons] at hlt
    cases h
    unfold spareBits at hspare
    unfold toSextets
    rw [htoNat (by omega), htoNat (by omega)]
    simp only [List.cons.injEq, and_true]
    omega
  | case5 a b c d rest ih =>
    simp only [forall_mem_cons] at hlt
    obtain ⟨ha, hb, hc, hd, hrest⟩ := hlt
    unfold ofSextets at h
    obtain ⟨bytes, hbytes, heq⟩ := bind_eq_some_iff.mp h
    cases heq
    unfold spareBits at hspare
    unfold toSextets
    rw [htoNat (by omega), htoNat (by omega), htoNat (by omega), ih hbytes hrest hspare]
    simp only [List.cons.injEq, and_true]
    omega

theorem mapM_sextet (h : ∀ n ∈ ns, n < 64) : (ns.map base64Digit).mapM sextet = some ns := by
  induction ns with
  | nil => rfl
  | cons n ns ih =>
    rw [map_cons, mapM_cons, sextet_base64Digit (h n mem_cons_self),
      ih fun m hm => h m (mem_cons_of_mem n hm)]
    rfl

theorem sextet_some {b : UInt8} {n : Nat} (h : sextet b = some n) : base64Digit n = b ∧ n < 64 := by
  have hall : ∀ k < 256, (sextet (UInt8.ofNat k)).all fun n =>
      base64Digit n = UInt8.ofNat k ∧ n < 64 := by decide +kernel
  have hb := hall b.toNat b.toNat_lt
  rw [UInt8.ofNat_toNat, h] at hb
  exact of_decide_eq_true hb

theorem mapM_sextet_some {s : Bytes} (h : s.mapM sextet = some ns) :
    ns.map base64Digit = s ∧ ∀ n ∈ ns, n < 64 := by
  induction s generalizing ns with
  | nil =>
    cases h
    exact ⟨rfl, nofun⟩
  | cons b s ih =>
    rw [mapM_cons] at h
    obtain ⟨n, hn, h⟩ := bind_eq_some_iff.mp h
    obtain ⟨ns', hns', h⟩ := bind_eq_some_iff.mp h
    cases h
    obtain ⟨hb, hlt⟩ := sextet_some hn
    obtain ⟨hs, hall⟩ := ih hns'
    exact ⟨by rw [map_cons, hb, hs], forall_mem_cons.mpr ⟨hlt, hall⟩⟩

theorem rawURLDecode_digits (h : ∀ n ∈ ns, n < 64) :
    rawURLDecode (ns.map base64Digit) = ofSextets ns := by
  have hbreak : ∀ n < 64, base64Digit n ≠ 0x0A ∧ base64Digit n ≠ 0x0D := by decide
  have hfilter : (ns.map base64Digit).filter (fun b => b ≠ 0x0A ∧ b ≠ 0x0D) =
      ns.map base64Digit := by
    refine filter_eq_self.mpr fun b hb => ?_
    obtain ⟨n, hn, rfl⟩ := List.mem_map.mp hb
    exact decide_eq_true (hbreak n (h n hn))
  unfold rawURLDecode
  rw [hfilter, mapM_sextet h]
  rfl

theorem rawURLDecode_rawURLEncode (s : Bytes) : rawURLDecode (rawURLEncode s) = some s :=
  (rawURLDecode_digits (toSextets_lt s)).trans (ofSextets_toSextets s)

/-- A text without line breaks and spare bits. -/
def Tight (s : Bytes) : Prop := ∃ ns, s.mapM sextet = some ns ∧ spareBits ns = 0

/-- What was decoded is written as it was read exactly where it was written tightly. -/
theorem rawURLEncode_eq_iff {s t : Bytes} (h : rawURLDecode s = some t) :
    rawURLEncode t = s ↔ Tight s := by
  constructor
  · rintro rfl
    exact ⟨toSextets t, mapM_sextet (toSextets_lt t), spareBits_toSextets t⟩
  · intro ⟨ns, hns, hspare⟩
    obtain ⟨rfl, hlt⟩ := mapM_sextet_some hns
    rw [rawURLDecode_digits hlt] at h
    unfold rawURLEncode
    rw [toSextets_ofSextets h hlt hspare]

def hexDigit (n : Nat) : UInt8 := if n < 10 then UInt8.ofNat (0x30 + n) else UInt8.ofNat (0x57 + n)

def hexEncode (s : Bytes) : Bytes :=
  s.flatMap fun b => [hexDigit (b.toNat / 16), hexDigit (b.toNat % 16)]

theorem hexEncode_printable {s : Bytes} {a : UInt8} (h : a ∈ hexEncode s) :
    0x30 ≤ a.toNat ∧ a.toNat < 0x80 := by
  have hdigit : ∀ n < 16, 0x30 ≤ (hexDigit n).toNat ∧ (hexDigit n).toNat < 0x80 := by decide
  obtain ⟨b, -, hb⟩ := mem_flatMap.mp h
  have hlt := b.toNat_lt
  simp only [mem_cons, not_mem_nil, or_false] at hb
  obtain rfl | rfl := hb
  · exact hdigit _ (by omega)
  · exact hdigit _ (by omega)

namespace Sha256

def constants : List UInt32 :=
  [0x428a2f98, 0x71374491, 0xb5c0fbcf, 0xe9b5dba5, 0x3956c25b, 0x59f111f1, 0x923f82a4, 0xab1c5ed5,
    0xd807aa98, 0x12835b01, 0x243185be, 0x550c7dc3, 0x72be5d74, 0x80deb1fe, 0x9bdc06a7, 0xc19bf174,
    0xe49b69c1, 0xefbe4786, 0x0fc19dc6, 0x240ca1cc, 0x2de92c6f, 0x4a7484aa, 0x5cb0a9dc, 0x76f988da,
    0x983e5152, 0xa831c66d, 0xb00327c8, 0xbf597fc7, 0xc6e00bf3, 0xd5a79147, 0x06ca6351, 0x14292967,
    0x27b70a85, 0x2e1b2138, 0x4d2c6dfc, 0x53380d13, 0x650a7354, 0x766a0abb, 0x81c2c92e, 0x92722c85,
    0xa2bfe8a1, 0xa81a664b, 0xc24b8b70, 0xc76c51a3, 0xd192e819, 0xd6990624, 0xf40e3585, 0x106aa070,
    0x19a4c116, 0x1e376c08, 0x2748774c, 0x34b0bcb5, 0x391c0cb3, 0x4ed8aa4a, 0x5b9cca4f, 0x682e6ff3,
    0x748f82ee, 0x78a5636f, 0x84c87814, 0x8cc70208, 0x90befffa, 0xa4506ceb, 0xbef9a3f7, 0xc67178f2]

structure Words where
  a : UInt32 := 0x6a09e667
  b : UInt32 := 0xbb67ae85
  c : UInt32 := 0x3c6ef372
  d : UInt32 := 0xa54ff53a
  e : UInt32 := 0x510e527f
  f : UInt32 := 0x9b05688c
  g : UInt32 := 0x1f83d9ab
  h : UInt32 := 0x5be0cd19

def rotr (x : UInt32) (n : UInt32) : UInt32 := (x >>> n) ||| (x <<< (32 - n))

def Words.round (s : Words) (k w : UInt32) : Words :=
  let t₁ := s.h + (rotr s.e 6 ^^^ rotr s.e 11 ^^^ rotr s.e 25) +
    ((s.e &&& s.f) ^^^ (~~~ s.e &&& s.g)) + k + w
  let t₂ := (rotr s.a 2 ^^^ rotr s.a 13 ^^^ rotr s.a 22) +
    ((s.a &&& s.b) ^^^ (s.a &&& s.c) ^^^ (s.b &&& s.c))
  ⟨t₁ + t₂, s.a, s.b, s.c, s.d + t₁, s.e, s.f, s.g⟩

def Words.add (s t : Words) : Words :=
  ⟨s.a + t.a, s.b + t.b, s.c + t.c, s.d + t.d, s.e + t.e, s.f + t.f, s.g + t.g, s.h + t.h⟩

def schedule : Nat → List UInt32 → List UInt32
  | 0, ws => ws
  | n + 1, ws =>
    let w₂ := ws.getD 1 0
    let w₁₅ := ws.getD 14 0
    let s₀ := rotr w₁₅ 7 ^^^ rotr w₁₅ 18 ^^^ (w₁₅ >>> 3)
    let s₁ := rotr w₂ 17 ^^^ rotr w₂ 19 ^^^ (w₂ >>> 10)
    schedule n ((ws.getD 15 0 + s₀ + ws.getD 6 0 + s₁) :: ws)

def toWords : Bytes → List UInt32
  | a :: b :: c :: d :: rest =>
    UInt32.ofNat (((a.toNat * 256 + b.toNat) * 256 + c.toNat) * 256 + d.toNat) :: toWords rest
  | _ => []

def ofWord (w : UInt32) : Bytes :=
  [w.toNat / 16777216, w.toNat / 65536, w.toNat / 256, w.toNat].map UInt8.ofNat

def Words.block (s : Words) (bytes : Bytes) : Words :=
  let ws := (schedule 48 (toWords bytes).reverse).reverse
  s.add ((constants.zip ws).foldl (fun s x => s.round x.1 x.2) s)

def blocks : Nat → Words → Bytes → Words
  | 0, s, _ => s
  | n + 1, s, bytes => blocks n (s.block (bytes.take 64)) (bytes.drop 64)

/-- The message, a one bit, zeros, and its length in bits. -/
def pad (s : Bytes) : Bytes :=
  let bits := s.length * 8
  s ++ [0x80] ++ List.replicate ((119 - s.length % 64) % 64) 0 ++
    ofWord (UInt32.ofNat (bits / 4294967296)) ++ ofWord (UInt32.ofNat bits)

end Sha256

def sum256 (s : Bytes) : Bytes :=
  let padded := Sha256.pad s
  let w := Sha256.blocks (padded.length / 64) {} padded
  [w.a, w.b, w.c, w.d, w.e, w.f, w.g, w.h].flatMap Sha256.ofWord

example : hexEncode ((sum256 (utf8 "abc")).take 8) = utf8 "ba7816bf8f01cfea" := by decide +kernel

end GolangBasics
