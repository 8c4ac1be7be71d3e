import GolangBasics.HttpDate
import GolangBasics.Strconv.Uint
import GolangBasics.Word

/-! The `Retry-After` header of a response: seconds or an HTTP date. -/
namespace GolangBasics.Resilient
open List
open HttpDate (LookupName parseTime)
open Json (isDigit)
open Rfc3339 (value)
open Strconv (parseUint)

def second : Int := 1000000000

def maxRetryAfter : Int := 24 * 3600 * second

/-- `Time.Sub`, which stays at the ends of `time.Duration`. -/
def sub (t now : Int) : Int := max (-2 ^ 63) (min (t - now) (2 ^ 63 - 1))

/-- `parseRetryAfter`: the delay, if the value is one. -/
def parseRetryAfter (lookupName : LookupName) (v : Bytes) (now : Int) : Option Int :=
  match trimSpace v with
  | [] => none
  | c :: rest =>
    if isDigit c then
      match parseUint (c :: rest) with
      | .error .outOfRange => some maxRetryAfter
      | .error .malformed => none
      | .ok secs =>
        if (maxRetryAfter / second).toNat ≤ secs then some maxRetryAfter
        else some (Word.wrap 64 (Word.wrap 64 secs * second))
    else
      match parseTime lookupName (c :: rest) with
      | none => none
      | some t => some (min (max (sub t now) 0) maxRetryAfter)

/-- What the header means: digits are seconds, anything else an HTTP date, and no delay is
longer than a day. -/
def retryAfter (lookupName : LookupName) (v : Bytes) (now : Int) : Option Int :=
  let s := trimSpace v
  if s.head?.any isDigit then
    if s.all isDigit then some (min (value s) 86400 * second) else none
  else (parseTime lookupName s).map fun t => max 0 (min (t - now) (86400 * second))

variable {lookupName : LookupName} {now : Int}

theorem maxRetryAfter_eq : maxRetryAfter = 86400 * second := by decide

theorem seconds_eq {secs : Nat} (h : secs < 86400) :
    Word.wrap 64 (Word.wrap 64 secs * second) = secs * second := by
  have hsecond : second = 1000000000 := rfl
  have hsecs : Word.wrap 64 secs = secs := Word.wrap_eq ⟨by omega, by omega⟩
  rw [hsecs, hsecond, Word.wrap_eq ⟨by omega, by omega⟩]

/-- Staying at the ends of the range does not matter for a delay of at most a day. -/
theorem clamp_sub (t now : Int) :
    min (max (sub t now) 0) maxRetryAfter = max 0 (min (t - now) (86400 * second)) := by
  have hsecond : second = 1000000000 := rfl
  rw [maxRetryAfter_eq, sub]
  omega

theorem takeWhile_of_all {s : Bytes} (h : s.all isDigit = true) : s.takeWhile isDigit = s :=
  takeWhile_eq_self_iff.mpr (all_eq_true.mp h)

/-- What becomes of a value that begins with a digit. -/
theorem parseRetryAfter_digits {v : Bytes} (h : (trimSpace v).head?.any isDigit = true) :
    parseRetryAfter lookupName v now =
      if (trimSpace v).all isDigit then some (min (value (trimSpace v)) 86400 * second)
      else if 2 ^ 64 ≤ value ((trimSpace v).takeWhile isDigit) then some (86400 * second)
      else none := by
  have hday : (maxRetryAfter / second).toNat = 86400 := by decide
  unfold parseRetryAfter
  generalize trimSpace v = s at h
  cases s with
  | nil => cases h
  | cons c rest =>
    have hc : isDigit c = true := by simpa using h
    dsimp only
    rw [if_pos hc, Strconv.parseUint_eq (cons_ne_nil c rest), hday, maxRetryAfter_eq]
    by_cases hall : (c :: rest).all isDigit = true
    · rw [if_pos hall, takeWhile_of_all hall, if_pos hall]
      generalize value (c :: rest) = n
      by_cases hhuge : 2 ^ 64 ≤ n
      · rw [if_pos hhuge, Nat.min_eq_right (by omega)]
        rfl
      · rw [if_neg hhuge]
        dsimp only
        by_cases hlong : 86400 ≤ n
        · rw [if_pos hlong, Nat.min_eq_right hlong]
          rfl
        · rw [if_neg hlong, seconds_eq (by omega), Nat.min_eq_left (by omega)]
    · rw [if_neg hall, if_neg hall]
      split_ifs <;> rfl

theorem parseRetryAfter_date {v : Bytes} (h : (trimSpace v).head?.any isDigit = false) :
    parseRetryAfter lookupName v now = retryAfter lookupName v now := by
  have hempty : parseTime lookupName [] = none := rfl
  unfold parseRetryAfter retryAfter
  generalize trimSpace v = s at h
  dsimp only
  rw [h]
  cases s with
  | nil => rw [hempty]; rfl
  | cons c rest =>
    have hc : ¬ isDigit c = true := by simpa using h
    dsimp only
    rw [if_neg hc]
    cases parseTime lookupName (c :: rest) with
    | none => rfl
    | some t => exact congrArg some (clamp_sub t now)

/-- The header is read as it is meant unless digits that spell a number of more than 64 bits
have something else behind them: the range error comes before the rest has been read. -/
theorem parseRetryAfter_eq_iff (lookupName : LookupName) (v : Bytes) (now : Int) :
    parseRetryAfter lookupName v now = retryAfter lookupName v now ↔
      (trimSpace v).all isDigit = true ∨ value ((trimSpace v).takeWhile isDigit) < 2 ^ 64 := by
  cases hdigit : (trimSpace v).head?.any isDigit with
  | false =>
    have hfront : (trimSpace v).takeWhile isDigit = [] := by
      cases hs : trimSpace v with
      | nil => rfl
      | cons c rest =>
        rw [hs] at hdigit
        exact takeWhile_cons_of_neg (by simpa using hdigit)
    refine iff_of_true (parseRetryAfter_date hdigit) (.inr ?_)
    rw [hfront]
    decide
  | true =>
    have hmeant : retryAfter lookupName v now = if (trimSpace v).all isDigit then
        some (min (value (trimSpace v)) 86400 * second) else none := by
      rw [retryAfter, if_pos hdigit]
    rw [parseRetryAfter_digits hdigit, hmeant]
    by_cases hall : (trimSpace v).all isDigit = true
    · rw [if_pos hall, if_pos hall]
      exact iff_of_true rfl (.inl hall)
    · rw [if_neg hall, if_neg hall]
      split_ifs with hhuge
      · refine iff_of_false (fun h => nomatch h) fun h => h.elim hall fun h => ?_
        omega
      · exact iff_of_true rfl (.inr (by omega))

/-- A number too large with a letter behind it is a day. -/
theorem retryAfter_garbage :
    parseRetryAfter (fun _ _ => none) (utf8 "99999999999999999999x") 0 = some maxRetryAfter ∧
      retryAfter (fun _ _ => none) (utf8 "99999999999999999999x") 0 = none := by
  decide +kernel

/-- A date as servers send it means the time until then. -/
theorem parseRetryAfter_imfDate {weekDay monthName : String}
    (hday : weekDay ∈ HttpDate.shortDayNames) {m : Rfc3339.Moment}
    (hmonth : HttpDate.shortMonthNames[m.month - 1]? = some monthName) (hyear : m.year < 10 ^ 4)
    (hnanos : m.nanos = 0) {v : Bytes}
    (hv : trimSpace v = HttpDate.imfDate weekDay monthName m) :
    parseRetryAfter lookupName v now =
      some (max 0 (min (m.instant - now) (86400 * second))) := by
  have hletter : (trimSpace v).head?.any isDigit = false := by
    rw [hv]
    simp only [HttpDate.shortDayNames, mem_cons, not_mem_nil, or_false] at hday
    obtain rfl | rfl | rfl | rfl | rfl | rfl | rfl := hday <;> rfl
  have hmeant : retryAfter lookupName v now =
      (parseTime lookupName (trimSpace v)).map fun t =>
        max 0 (min (t - now) (86400 * second)) := by
    rw [retryAfter, if_neg (by simp [hletter])]
  rw [parseRetryAfter_date hletter, hmeant, hv,
    HttpDate.parseTime_imfDate lookupName hday hmonth hyear hnanos]
  rfl

/-- Two minutes before the date. -/
theorem parseRetryAfter_imfDate_ahead :
    parseRetryAfter (fun _ _ => none) (utf8 "Sun, 06 Nov 1994 08:49:37 GMT")
      (784111657 * second) = some (120 * second) :=
  (parseRetryAfter_imfDate (m := ⟨1994, 11, 6, 8, 49, 37, 0, by unfold Rfc3339.Valid; decide,
    by decide, by decide, by decide, by decide⟩) (by decide : "Sun" ∈ _) rfl (by decide) rfl
    (by decide +kernel)).trans (by decide +kernel)

end GolangBasics.Resilient
