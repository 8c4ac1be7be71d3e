import GolangBasics.Json
import Mathlib.Algebra.Ring.Nat

/-! `time.Parse` with the layout `time.RFC3339Nano`. -/
namespace GolangBasics.Rfc3339
open Json (isDigit)

def digit (b : UInt8) : Nat := b.toNat - 0x30

/-- `getnum`: two digits, or one where the layout does not fix the width. -/
def getnum (fixed : Bool) : Bytes → Option (Nat × Bytes)
  | a :: b :: rest =>
    if !isDigit a then none
    else if isDigit b then some (digit a * 10 + digit b, rest)
    else if fixed then none
    else some (digit a, b :: rest)
  | [a] => if isDigit a && !fixed then some (digit a, []) else none
  | [] => none

def skip (b : UInt8) : Bytes → Option Bytes
  | c :: rest => if c = b then some rest else none
  | [] => none

def getYear : Bytes → Option (Nat × Bytes)
  | a :: b :: c :: d :: rest =>
    if [a, b, c, d].all isDigit then
      some (((digit a * 10 + digit b) * 10 + digit c) * 10 + digit d, rest)
    else none
  | _ => none

/-- The fraction of a second in nanoseconds, after a point or a comma; the digits after the
ninth are dropped. -/
def getNanos : Bytes → Nat × Bytes
  | p :: rest =>
    let (digits, after) := rest.span isDigit
    if (p = 0x2E || p = 0x2C) && !digits.isEmpty then
      let kept := digits.take 9
      (kept.foldl (fun n b => n * 10 + digit b) 0 * 10 ^ (9 - kept.length), after)
    else (0, p :: rest)
  | [] => (0, [])

def getZone : Bytes → Option (Int × Bytes)
  | [] => none
  | z :: rest =>
    if z = 0x5A then some (0, rest)
    else do
      let (hour, rest) ← getnum true rest
      let rest ← skip 0x3A rest
      let (minute, rest) ← getnum true rest
      let offset : Int := (hour * 60 + minute) * 60
      if 24 < hour ∨ 60 < minute then none
      else if z = 0x2B then some (offset, rest)
      else if z = 0x2D then some (-offset, rest)
      else none

def isLeap (year : Nat) : Bool := year % 4 = 0 && (year % 100 ≠ 0 || year % 400 = 0)

def daysIn (month year : Nat) : Nat :=
  if month = 2 then if isLeap year then 29 else 28
  else if [4, 6, 9, 11].contains month then 30 else 31

def dayNumber (year month day : Nat) : Nat :=
  365 * year + (year + 3) / 4 - (year + 99) / 100 + (year + 399) / 400 +
    ((List.range month).drop 1).foldl (fun n m => n + daysIn m year) 0 + (day - 1)

def parse (s : Bytes) : Option Int := do
  let (year, s) ← getYear s
  let s ← skip 0x2D s
  let (month, s) ← getnum true s
  let s ← skip 0x2D s
  let (day, s) ← getnum true s
  let s ← skip 0x54 s
  let (hour, s) ← getnum false s
  let s ← skip 0x3A s
  let (minute, s) ← getnum true s
  let s ← skip 0x3A s
  let (second, s) ← getnum true s
  let (nanos, s) := getNanos s
  let (zone, s) ← getZone s
  if s.isEmpty ∧ (1 ≤ month ∧ month ≤ 12) ∧ (1 ≤ day ∧ day ≤ daysIn month year) ∧
      hour < 24 ∧ minute < 60 ∧ second < 60 then
    let days : Int := dayNumber year month day - dayNumber 1970 1 1
    some (((days * 24 + hour) * 3600 + minute * 60 + second - zone) * 1000000000 + nanos)
  else none

example : parse (utf8 "2024-02-29T12:00:00.5+01:00") = some 1709204400500000000 := by
  decide +kernel

end GolangBasics.Rfc3339
