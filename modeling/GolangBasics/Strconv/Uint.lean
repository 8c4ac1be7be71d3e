import GolangBasics.Strconv
import GolangBasics.Rfc3339.Format

/-! `strconv.ParseUint(s, 10, 64)`, which reads its text byte by byte and reports what it meets
first: a byte that is no digit, or a number too large. -/
namespace GolangBasics.Strconv
open Json (isDigit)
open Rfc3339 (digit value)

/-- The smallest number whose tenfold is out of range. -/
def cutoff : Nat := (2 ^ 64 - 1) / 10 + 1

def lower (c : UInt8) : UInt8 := c ||| 0x20

def digitOf (c : UInt8) : Option Nat :=
  if isDigit c then some (digit c)
  else if 0x61 ≤ lower c ∧ lower c ≤ 0x7A then some ((lower c).toNat - 0x61 + 10)
  else none

def parseUintFrom : Nat → Bytes → Except NumError Nat
  | n, [] => .ok n
  | n, c :: rest =>
    match digitOf c with
    | none => .error .malformed
    | some d =>
      if 10 ≤ d then .error .malformed
      else if cutoff ≤ n then .error .outOfRange
      else
        let tens := n * 10 % 2 ^ 64
        let next := (tens + d) % 2 ^ 64
        if next < tens then .error .outOfRange else parseUintFrom next rest

def parseUint (s : Bytes) : Except NumError Nat :=
  if s = [] then .error .malformed else parseUintFrom 0 s

def extended (n : Nat) (ds : Bytes) : Nat := ds.foldl (fun n b => n * 10 + digit b) n

theorem le_extended (n : Nat) (ds : Bytes) : n ≤ extended n ds := by
  induction ds generalizing n with
  | nil => exact Nat.le_refl n
  | cons b ds ih =>
    have h : n ≤ n * 10 + digit b := by omega
    exact h.trans (ih _)

theorem digit_lt {c : UInt8} (h : isDigit c = true) : digit c < 10 := by
  simp only [isDigit, Bool.and_eq_true, decide_eq_true_eq, UInt8.le_iff_toNat_le] at h
  have hhigh : c.toNat ≤ 57 := h.2
  unfold digit
  omega

theorem digitOf_other {c : UInt8} (h : isDigit c = false) {d : Nat} (hd : digitOf c = some d) :
    10 ≤ d := by
  rw [digitOf, if_neg (by simp [h])] at hd
  split at hd
  · cases hd
    omega
  · cases hd

variable {n : Nat}

theorem parseUintFrom_other {c : UInt8} (h : isDigit c = false) (rest : Bytes) :
    parseUintFrom n (c :: rest) = .error .malformed := by
  rw [parseUintFrom]
  cases hd : digitOf c with
  | none => rfl
  | some d => exact if_pos (digitOf_other h hd)

theorem parseUintFrom_digit {c : UInt8} (hn : n < 2 ^ 64) (h : isDigit c = true) (rest : Bytes) :
    parseUintFrom n (c :: rest) =
      if n * 10 + digit c < 2 ^ 64 then parseUintFrom (n * 10 + digit c) rest
      else .error .outOfRange := by
  have hd := digit_lt h
  have hcutoff : cutoff = 1844674407370955162 := rfl
  rw [parseUintFrom, digitOf, if_pos h]
  dsimp only
  rw [if_neg (by omega)]
  by_cases hle : cutoff ≤ n
  · rw [if_pos hle, if_neg (by omega)]
  · have htens : n * 10 % 2 ^ 64 = n * 10 := Nat.mod_eq_of_lt (by omega)
    rw [if_neg hle, htens]
    by_cases hlt : n * 10 + digit c < 2 ^ 64
    · rw [if_pos hlt, Nat.mod_eq_of_lt hlt, if_neg (by omega)]
    · rw [if_neg hlt, if_pos (by omega)]

/-- A number too large is reported before what follows its digits is looked at. -/
theorem parseUintFrom_eq (hn : n < 2 ^ 64) (s : Bytes) :
    parseUintFrom n s =
      if 2 ^ 64 ≤ extended n (s.takeWhile isDigit) then .error .outOfRange
      else if s.all isDigit then .ok (extended n (s.takeWhile isDigit))
      else .error .malformed := by
  induction s generalizing n with
  | nil =>
    have hext : extended n [] = n := rfl
    rw [parseUintFrom, List.takeWhile_nil, hext, if_neg (by omega)]
    rfl
  | cons c rest ih =>
    cases hc : isDigit c with
    | false =>
      have hext : extended n [] = n := rfl
      rw [parseUintFrom_other hc, List.takeWhile_cons_of_neg (by simp [hc]), hext,
        if_neg (by omega), List.all_cons, hc]
      rfl
    | true =>
      rw [parseUintFrom_digit hn hc, List.takeWhile_cons_of_pos hc, List.all_cons, hc,
        Bool.true_and]
      have hext : extended n (c :: rest.takeWhile isDigit) =
          extended (n * 10 + digit c) (rest.takeWhile isDigit) := rfl
      rw [hext]
      by_cases hlt : n * 10 + digit c < 2 ^ 64
      · rw [if_pos hlt]
        exact ih hlt
      · have hle := le_extended (n * 10 + digit c) (rest.takeWhile isDigit)
        rw [if_neg hlt, if_pos (by omega)]

/-- What the digits at the front spell decides first. -/
theorem parseUint_eq {s : Bytes} (h : s ≠ []) :
    parseUint s =
      if 2 ^ 64 ≤ value (s.takeWhile isDigit) then .error .outOfRange
      else if s.all isDigit then .ok (value (s.takeWhile isDigit))
      else .error .malformed := by
  rw [parseUint, if_neg h]
  exact parseUintFrom_eq (by decide) s

end GolangBasics.Strconv
