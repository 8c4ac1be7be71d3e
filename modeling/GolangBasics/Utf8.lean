import GolangBasics.Errors

/-! UTF-8 as Go's `unicode/utf8` and `strings` treat byte strings. -/
namespace GolangBasics

def continues (lo hi b : UInt8) : Bool := lo ≤ b && b ≤ hi

/-- The length of the valid encoding the bytes start with, 0 when they start with none. -/
def runeLen : Bytes → Nat
  | [] => 0
  | b :: rest =>
    let tail (lo hi : UInt8) (n : Nat) : Nat :=
      match rest with
      | b₁ :: rest =>
        if continues lo hi b₁ && (rest.take n).length = n && (rest.take n).all (continues 0x80 0xBF)
        then n + 2 else 0
      | [] => 0
    if b < 0x80 then 1
    else if continues 0xC2 0xDF b then tail 0x80 0xBF 0
    else if b = 0xE0 then tail 0xA0 0xBF 1
    else if b = 0xED then tail 0x80 0x9F 1
    else if continues 0xE1 0xEF b then tail 0x80 0xBF 1
    else if b = 0xF0 then tail 0x90 0xBF 2
    else if b = 0xF4 then tail 0x80 0x8F 2
    else if continues 0xF1 0xF3 b then tail 0x80 0xBF 2
    else 0

/-- `strings.ToValidUTF8(s, "")`; `keep` bytes belong to a valid encoding. -/
def dropInvalid : Nat → Bytes → Bytes
  | _, [] => []
  | keep + 1, b :: rest => b :: dropInvalid keep rest
  | 0, b :: rest =>
    match runeLen (b :: rest) with
    | 0 => dropInvalid 0 rest
    | n + 1 => b :: dropInvalid n rest

def toValidUTF8 (s : Bytes) : Bytes := dropInvalid 0 s

end GolangBasics
