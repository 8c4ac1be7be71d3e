import GolangBasics.Rfc3339.Format
import GolangBasics.Runes

/-! The texts of `strconv.Quote`, which is also the verb `%q`, and of `Duration.String`. -/
namespace GolangBasics
open Rfc3339 (decimal fixed)

def hexDigits (width n : Nat) : Bytes :=
  (List.range width).reverse.map fun k => UInt8.ofNat (Nat.digitChar (n / 16 ^ k % 16)).toNat

/-- `appendEscapedRune`; `isPrint` is the table of `strconv.IsPrint`. -/
def escapedRune (isPrint : Nat → Bool) (r : Nat) : Bytes :=
  if r = 0x22 ∨ r = 0x5C then [0x5C, UInt8.ofNat r]
  else if isPrint r then encodeRune r
  else
    match r with
    | 0x07 => utf8 "\\a"
    | 0x08 => utf8 "\\b"
    | 0x09 => utf8 "\\t"
    | 0x0A => utf8 "\\n"
    | 0x0B => utf8 "\\v"
    | 0x0C => utf8 "\\f"
    | 0x0D => utf8 "\\r"
    | r =>
      if r < 0x20 ∨ r = 0x7F then utf8 "\\x" ++ hexDigits 2 r
      else if r < 0x10000 then utf8 "\\u" ++ hexDigits 4 r
      else utf8 "\\U" ++ hexDigits 8 r

/-- A byte that is no part of a rune is escaped, too. -/
def quote (isPrint : Nat → Bool) (s : Bytes) : Bytes :=
  0x22 :: (runes s).flatMap (fun (r, bytes) =>
    match bytes with
    | [b] => if r = runeError then utf8 "\\x" ++ hexDigits 2 b.toNat else escapedRune isPrint r
    | _ => escapedRune isPrint r) ++ [0x22]

example : quote (fun r => 0x20 ≤ r && r < 0x7F) (utf8 "a\"\tü" ++ [0xFF]) =
    utf8 "\"a\\\"\\t\\u00fc\\xff\"" := by decide +kernel

/-- `fmtInt` and `fmtFrac`: `n / 10 ^ digits` without the zeros at the end. -/
def fmtFrac (n digits : Nat) : Bytes :=
  let fraction := (fixed digits (n % 10 ^ digits)).rdropWhile (· = 0x30)
  decimal (n / 10 ^ digits) ++ if fraction = [] then [] else 0x2E :: fraction

/-- `Duration.String` of a number of nanoseconds. -/
def durationString (n : Int) : Bytes :=
  let u := n.natAbs
  let minutes := u / (60 * 10 ^ 9)
  (if n < 0 then [0x2D] else []) ++
    if u = 0 then utf8 "0s"
    else if u < 10 ^ 3 then fmtFrac u 0 ++ utf8 "ns"
    else if u < 10 ^ 6 then fmtFrac u 3 ++ utf8 "µs"
    else if u < 10 ^ 9 then fmtFrac u 6 ++ utf8 "ms"
    else
      (if minutes / 60 = 0 then [] else decimal (minutes / 60) ++ utf8 "h") ++
        (if minutes = 0 then [] else decimal (minutes % 60) ++ utf8 "m") ++
        fmtFrac (u % (60 * 10 ^ 9)) 9 ++ utf8 "s"

example : durationString (-5400050000000) = utf8 "-1h30m0.05s" ∧
    durationString 1500 = utf8 "1.5µs" := by decide +kernel

end GolangBasics
