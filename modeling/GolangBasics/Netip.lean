import GolangBasics.Json
import GolangBasics.Strings

/-! IP addresses and address blocks as `net/netip` reads, prints and compares them, and host and
port as `net` joins and splits them. -/
namespace GolangBasics.Netip
open Json (unhex isDigit)
open Strings

/-- `netip.Addr`; the zero value is `invalid`. A zone is empty where there is none. -/
inductive Addr where
  | invalid
  | v4 (bits : BitVec 32)
  | v6 (bits : BitVec 128) (zone : Bytes)
  deriving DecidableEq

/-- `parseIPv4Fields`: `done` holds the octets before the one at hand, of which `len` digits with
the value `val` are read. -/
def ipv4Fields (done : List Nat) (val len : Nat) : Bytes → Option (List Nat)
  | [] => if done.length < 3 then none else some (done ++ [val])
  | b :: rest =>
    if isDigit b then
      if len = 1 ∧ val = 0 then none
      else
        let val := val * 10 + (b.toNat - 0x30)
        if 255 < val then none else ipv4Fields done val (len + 1) rest
    else if b = 0x2E then
      if len = 0 ∨ rest = [] then none
      else if done.length = 3 then none
      else ipv4Fields (done ++ [val]) 0 0 rest
    else none

def ofDigits (base : Nat) (ds : List Nat) : Nat := ds.foldl (fun n d => n * base + d) 0

def toDigits (base : Nat) : Nat → Nat → List Nat
  | 0, _ => []
  | k + 1, n => toDigits base k (n / base) ++ [n % base]

def parseIPv4 (s : Bytes) : Option Addr := do
  let octets ← ipv4Fields [] 0 0 s
  some (.v4 (BitVec.ofNat 32 (ofDigits 256 octets)))

/-- The hexadecimal number in front of `s`, of at most four digits. -/
def hexField (s : Bytes) : Option (Nat × Bytes) :=
  let ds := s.takeWhile fun b => (unhex b).isSome
  if ds = [] ∨ 4 < ds.length then none
  else some (ofDigits 16 (ds.map fun b => (unhex b).getD 0), s.drop ds.length)

structure Fields where
  groups : List Nat
  ellipsis : Option Nat
  deriving DecidableEq

/-- The loop of `parseIPv6`, which has room for `room` more fields. -/
def ipv6Fields (f : Fields) : Nat → Bytes → Option Fields
  | 0, s => if s = [] then some f else none
  | room + 1, s => do
    let (acc, rest) ← hexField s
    match rest with
    | [] => some { f with groups := f.groups ++ [acc] }
    | b :: rest =>
      if b = 0x2E then
        -- an IPv4 address takes the last two fields
        if f.ellipsis = none ∧ f.groups.length ≠ 6 then none
        else if 6 < f.groups.length then none
        else do
          let octets ← ipv4Fields [] 0 0 s
          some { f with groups := f.groups ++ toDigits 65536 2 (ofDigits 256 octets) }
      else if b ≠ 0x3A then none
      else
        let f := { f with groups := f.groups ++ [acc] }
        match rest with
        | [] => none
        | b :: rest =>
          if b = 0x3A then
            if f.ellipsis ≠ none then none
            else
              let f := { f with ellipsis := some f.groups.length }
              if rest = [] then some f else ipv6Fields f room rest
          else ipv6Fields f room (b :: rest)

def Fields.expand (f : Fields) : Option (List Nat) :=
  match f.ellipsis with
  | none => if f.groups.length < 8 then none else some f.groups
  | some e =>
    if f.groups.length < 8 then
      some (f.groups.take e ++ List.replicate (8 - f.groups.length) 0 ++ f.groups.drop e)
    else none

/-- `parseIPv6` of a text whose zone is split off. -/
def ipv6Groups (s : Bytes) : Option (List Nat) :=
  let fields : Option Fields :=
    match s with
    | 0x3A :: 0x3A :: rest =>
      if rest = [] then some ⟨[], some 0⟩ else ipv6Fields ⟨[], some 0⟩ 8 rest
    | s => ipv6Fields ⟨[], none⟩ 8 s
  fields.bind Fields.expand

def parseIPv6 (s : Bytes) : Option Addr :=
  let bits (s : Bytes) : Option (BitVec 128) :=
    (ipv6Groups s).map fun groups => BitVec.ofNat 128 (ofDigits 65536 groups)
  match s.span (· ≠ 0x25) with
  | (s, []) => (bits s).map (.v6 · [])
  | (s, _ :: zone) => if zone = [] then none else (bits s).map (.v6 · zone)

def telling (b : UInt8) : Bool := b = 0x2E || b = 0x3A || b = 0x25

/-- `ParseAddr`: the first dot, colon or percent sign tells what the text is. -/
def parseAddr (s : Bytes) : Option Addr :=
  match s.find? telling with
  | some 0x2E => parseIPv4 s
  | some 0x3A => parseIPv6 s
  | _ => none

namespace Addr

def isValid : Addr → Bool
  | invalid => false
  | _ => true

def is4In6 (bits : BitVec 128) : Bool := bits >>> 32 = 0xFFFF#128

def unmap : Addr → Addr
  | v6 bits zone => if is4In6 bits then v4 (bits.setWidth 32) else v6 bits zone
  | a => a

def bitLen : Addr → Nat
  | invalid => 0
  | v4 _ => 32
  | v6 _ _ => 128

def zone : Addr → Bytes
  | v6 _ zone => zone
  | _ => []

def withoutZone : Addr → Addr
  | v6 bits _ => v6 bits []
  | a => a

end Addr

def lowerHex (n : Nat) : UInt8 := if n < 10 then UInt8.ofNat (0x30 + n) else UInt8.ofNat (0x57 + n)

def appendDecimal (x : Nat) : Bytes :=
  (if 100 ≤ x then [lowerHex (x / 100)] else []) ++
    (if 10 ≤ x then [lowerHex (x / 10 % 10)] else []) ++ [lowerHex (x % 10)]

def appendHex (x : Nat) : Bytes :=
  (if 0x1000 ≤ x then [lowerHex (x / 0x1000)] else []) ++
    (if 0x100 ≤ x then [lowerHex (x / 0x100 % 16)] else []) ++
    (if 0x10 ≤ x then [lowerHex (x / 0x10 % 16)] else []) ++ [lowerHex (x % 16)]

def string4 (bits : BitVec 32) : Bytes :=
  joined 0x2E ((toDigits 256 4 bits.toNat).map appendDecimal)

/-- The first of the longest runs of at least two zeros among the groups, as `appendTo6` looks
for it: where it starts and where it ends. -/
def zeroRun (groups : List Nat) : Option (Nat × Nat) :=
  (List.range groups.length).foldl (fun best i =>
    let n := ((groups.drop i).takeWhile (· = 0)).length
    let longest := match best with
      | none => 0
      | some (first, last) => last - first
    if 2 ≤ n ∧ longest < n then some (i, i + n) else best) none

def string6 (bits : BitVec 128) : Bytes :=
  let groups := toDigits 65536 8 bits.toNat
  let text (gs : List Nat) : Bytes := joined 0x3A (gs.map appendHex)
  match zeroRun groups with
  | none => text groups
  | some (first, last) => text (groups.take first) ++ [0x3A, 0x3A] ++ text (groups.drop last)

def Addr.string : Addr → Bytes
  | invalid => utf8 "invalid IP"
  | v4 bits => string4 bits
  | v6 bits zone =>
    let text :=
      if is4In6 bits then utf8 "::ffff:" ++ string4 (bits.setWidth 32) else string6 bits
    if zone = [] then text else text ++ 0x25 :: zone

/-- `netip.Prefix` as `PrefixFrom` makes it: without a zone, and valid. -/
structure Prefix where
  ip : Addr
  bits : Nat
  deriving DecidableEq

def prefixFrom (ip : Addr) (bits : Nat) : Prefix := ⟨ip.withoutZone, bits⟩

/-- The length of a block, decimal without a sign and without leading zeros. -/
def prefixBits (s : Bytes) : Option Nat :=
  if s = [] ∨ (1 < s.length ∧ s.head? = some 0x30) ∨ ¬ s.all isDigit then none
  else some (ofDigits 10 (s.map fun b => b.toNat - 0x30))

def parsePrefix (s : Bytes) : Option Prefix := do
  let (addr, len) ← cutLast 0x2F s
  let ip ← parseAddr addr
  if ip.zone ≠ [] then none
  else do
    let bits ← prefixBits len
    if ip.bitLen < bits then none else some (prefixFrom ip bits)

def mask (w n : Nat) : BitVec w := BitVec.allOnes w <<< (w - n)

namespace Prefix

def masked (p : Prefix) : Prefix :=
  match p.ip with
  | .invalid => p
  | .v4 bits => { p with ip := .v4 (bits &&& mask 32 p.bits) }
  | .v6 bits zone => { p with ip := .v6 (bits &&& mask 128 p.bits) zone }

def contains (p : Prefix) (a : Addr) : Bool :=
  match p.ip, a with
  | .v4 own, .v4 bits => (bits ^^^ own) >>> (32 - p.bits) = 0#32
  | .v6 own _, .v6 bits zone => zone = [] && (bits ^^^ own) &&& mask 128 p.bits = 0#128
  | _, _ => false

end Prefix

def joinHostPort (host port : Bytes) : Bytes :=
  if 0x3A ∈ host then 0x5B :: host ++ [0x5D, 0x3A] ++ port else host ++ 0x3A :: port

def splitHost (s : Bytes) : Option Bytes := do
  let (before, after) ← cutLast 0x3A s
  match before with
  | 0x5B :: inner =>
    -- the first closing bracket must stand just before the last colon
    match inner.span (· ≠ 0x5D) with
    | (host, [_]) => if 0x5B ∈ host ++ after ∨ 0x5D ∈ after then none else some host
    | _ => none
  | host => if 0x3A ∈ host ∨ 0x5B ∈ s ∨ 0x5D ∈ s then none else some host

end GolangBasics.Netip
