import GolangBasics.Rfc3339.Format
import Mathlib.Tactic.IntervalCases

/-! `http.ParseTime`: `time.Parse` with the three layouts of an HTTP date. -/
namespace GolangBasics.HttpDate
open List Option
open Json (isDigit)
open Rfc3339 (digit value fixed getnum getYear getNanos daysIn dayNumber)

/-- The parts of a layout, as `nextStdChunk` cuts them out. -/
inductive Chunk where
  | text (t : Bytes)
  | weekDay | longWeekDay
  | zeroDay | underDay
  | month
  | year | longYear
  | hour | zeroMinute | zeroSecond
  | zone
  deriving DecidableEq, Repr

/-- `Mon, 02 Jan 2006 15:04:05 GMT` -/
def timeFormat : List Chunk :=
  [.weekDay, .text (utf8 ", "), .zeroDay, .text (utf8 " "), .month, .text (utf8 " "), .longYear,
    .text (utf8 " "), .hour, .text (utf8 ":"), .zeroMinute, .text (utf8 ":"), .zeroSecond,
    .text (utf8 " GMT")]

/-- `Monday, 02-Jan-06 15:04:05 MST` -/
def rfc850 : List Chunk :=
  [.longWeekDay, .text (utf8 ", "), .zeroDay, .text (utf8 "-"), .month, .text (utf8 "-"), .year,
    .text (utf8 " "), .hour, .text (utf8 ":"), .zeroMinute, .text (utf8 ":"), .zeroSecond,
    .text (utf8 " "), .zone]

/-- `Mon Jan _2 15:04:05 2006` -/
def ansic : List Chunk :=
  [.weekDay, .text (utf8 " "), .month, .text (utf8 " "), .underDay, .text (utf8 " "), .hour,
    .text (utf8 ":"), .zeroMinute, .text (utf8 ":"), .zeroSecond, .text (utf8 " "), .longYear]

def shortDayNames : List String := ["Sun", "Mon", "Tue", "Wed", "Thu", "Fri", "Sat"]

def longDayNames : List String :=
  ["Sunday", "Monday", "Tuesday", "Wednesday", "Thursday", "Friday", "Saturday"]

def shortMonthNames : List String :=
  ["Jan", "Feb", "Mar", "Apr", "May", "Jun", "Jul", "Aug", "Sep", "Oct", "Nov", "Dec"]

def sameLetter (a b : UInt8) : Bool :=
  a = b || ((a ||| 0x20) = (b ||| 0x20) && 0x61 ≤ (a ||| 0x20) && (a ||| 0x20) ≤ 0x7A)

def afterName : Bytes → Bytes → Option Bytes
  | [], s => some s
  | _ :: _, [] => none
  | c :: name, b :: s => if sameLetter b c then afterName name s else none

/-- `lookup`: the first name that the text begins with, counted from `i`. -/
def lookup : Nat → List String → Bytes → Option (Nat × Bytes)
  | _, [], _ => none
  | i, name :: names, s =>
    match afterName (utf8 name) s with
    | some rest => some (i, rest)
    | none => lookup (i + 1) names s

/-- `skip`: a blank of the layout stands for any number of them, none only at the end. -/
def skipText : Bytes → Bytes → Option Bytes
  | [], s => some s
  | c :: t, s =>
    if c = 0x20 then
      if s.head?.any (· ≠ 0x20) then none else skipText t (s.dropWhile (· = 0x20))
    else
      match s with
      | b :: rest => if b = c then skipText t rest else none
      | [] => none

def getShortYear : Bytes → Option (Nat × Bytes)
  | a :: b :: rest =>
    if !isDigit b then none
    else if isDigit a then
      let year := digit a * 10 + digit b
      some (if 69 ≤ year then year + 1900 else year + 2000, rest)
    else if a = 0x2B then some (2000 + digit b, rest)
    else if a = 0x2D then some (2000 - digit b, rest)
    else none
  | _ => none

/-- `parseSignedOffset`: the length of a sign and hours up to 23, or nothing. -/
def parseSignedOffset : Bytes → Nat
  | sign :: rest =>
    let hours := rest.takeWhile isDigit
    if (sign = 0x2D ∨ sign = 0x2B) ∧ hours ≠ [] ∧ value hours ≤ 23 then 1 + hours.length else 0
  | [] => 0

def isUpper (b : UInt8) : Bool := 0x41 ≤ b && b ≤ 0x5A

def parseTimeZone (s : Bytes) : Option Nat :=
  if s.length < 3 then none
  else if s.take 4 = utf8 "ChST" ∨ s.take 4 = utf8 "MeST" then some 4
  else if s.take 3 = utf8 "GMT" then some (3 + parseSignedOffset (s.drop 3))
  else if s.head? = some 0x2B ∨ s.head? = some 0x2D then
    let length := parseSignedOffset s
    if 0 < length then some length else none
  else
    match ((s.take 6).takeWhile isUpper).length with
    | 5 => if s[4]? = some 0x54 then some 5 else none
    | 4 => if s[3]? = some 0x54 ∨ s.take 4 = utf8 "WITA" then some 4 else none
    | 3 => some 3
    | _ => none

/-- What has been read of a date: `zone` is an abbreviation other than `UTC`. -/
structure Fields where
  year : Nat := 0
  month : Nat := 1
  day : Nat := 1
  hour : Nat := 0
  minute : Nat := 0
  second : Nat := 0
  nanos : Nat := 0
  zone : Option Bytes := none

def readChunk (f : Fields) (s : Bytes) : Chunk → Option (Fields × Bytes)
  | .text t => (skipText t s).map fun rest => (f, rest)
  | .weekDay => (lookup 0 shortDayNames s).map fun (_, rest) => (f, rest)
  | .longWeekDay => (lookup 0 longDayNames s).map fun (_, rest) => (f, rest)
  | .month => (lookup 1 shortMonthNames s).map fun (month, rest) => ({ f with month }, rest)
  | .zeroDay => (getnum true s).map fun (day, rest) => ({ f with day }, rest)
  | .underDay =>
    (getnum false (if s.head? = some 0x20 then s.drop 1 else s)).map fun (day, rest) =>
      ({ f with day }, rest)
  | .year => (getShortYear s).map fun (year, rest) => ({ f with year }, rest)
  | .longYear => (getYear s).map fun (year, rest) => ({ f with year }, rest)
  | .hour => do
    let (hour, rest) ← getnum false s
    if hour < 24 then some ({ f with hour }, rest) else none
  | .zeroMinute => do
    let (minute, rest) ← getnum true s
    if minute < 60 then some ({ f with minute }, rest) else none
  | .zeroSecond => do
    let (second, rest) ← getnum true s
    -- A fraction is taken here although no layout has one.
    let (nanos, rest) := getNanos rest
    if second < 60 then some ({ f with second, nanos }, rest) else none
  | .zone =>
    if s.take 3 = utf8 "UTC" then some ({ f with zone := none }, s.drop 3)
    else (parseTimeZone s).map fun n => ({ f with zone := some (s.take n) }, s.drop n)

def readChunks (f : Fields) (s : Bytes) : List Chunk → Option (Fields × Bytes)
  | [] => some (f, s)
  | c :: cs => (readChunk f s c).bind fun (f, s) => readChunks f s cs

/-- `Location.lookupName` of the local zone: the offset that an abbreviation stands for at a
time in seconds since 1970, in seconds east of UTC. -/
abbrev LookupName := Bytes → Int → Option Int

/-- `time.Parse`, in nanoseconds since 1970. An abbreviation that the local zone does not know
gives the zone its name and leaves the instant as in UTC. -/
def parseLayout (lookupName : LookupName) (s : Bytes) (layout : List Chunk) : Option Int := do
  let (f, rest) ← readChunks {} s layout
  if rest = [] ∧ 1 ≤ f.day ∧ f.day ≤ daysIn f.month f.year then
    let days : Int := dayNumber f.year f.month f.day - dayNumber 1970 1 1
    let seconds : Int := (days * 24 + f.hour) * 3600 + f.minute * 60 + f.second
    let offset := (f.zone.bind fun name => lookupName name seconds).getD 0
    some ((seconds - offset) * 1000000000 + f.nanos)
  else none

def parseTime (lookupName : LookupName) (s : Bytes) : Option Int :=
  [timeFormat, rfc850, ansic].findSome? (parseLayout lookupName s)

def imfDate (weekDay monthName : String) (m : Rfc3339.Moment) : Bytes :=
  utf8 weekDay ++ (utf8 ", " ++ (fixed 2 m.day ++ (utf8 " " ++ (utf8 monthName ++ (utf8 " " ++
    (fixed 4 m.year ++ (utf8 " " ++ (fixed 2 m.hour ++ (utf8 ":" ++ (fixed 2 m.minute ++
    (utf8 ":" ++ (fixed 2 m.second ++ utf8 " GMT"))))))))))))

theorem lookup_weekDay {weekDay : String} (h : weekDay ∈ shortDayNames) (rest : Bytes) :
    ∃ i, lookup 0 shortDayNames (utf8 weekDay ++ rest) = some (i, rest) := by
  simp only [shortDayNames, mem_cons, not_mem_nil, or_false] at h
  obtain rfl | rfl | rfl | rfl | rfl | rfl | rfl := h <;> exact ⟨_, rfl⟩

theorem lookup_month {month : Nat} {monthName : String}
    (h : shortMonthNames[month - 1]? = some monthName) (hpos : 1 ≤ month) (rest : Bytes) :
    lookup 1 shortMonthNames (utf8 monthName ++ rest) = some (month, rest) := by
  obtain ⟨k, rfl⟩ := Nat.exists_eq_add_of_le' hpos
  rw [Nat.add_sub_cancel] at h
  have hlt : k < 12 := (List.getElem?_eq_some_iff.mp h).1
  interval_cases k <;>
    (simp only [shortMonthNames, List.getElem?_cons_zero, List.getElem?_cons_succ,
      Option.some.injEq] at h; subst h; rfl)

def Solid (s : Bytes) : Prop := s.head?.any (· ≠ 0x20) = true

theorem skipText_blank {s : Bytes} (h : Solid s) :
    skipText (utf8 " ") (utf8 " " ++ s) = some s := by
  cases s with
  | nil => cases h
  | cons b s =>
    have hb : b ≠ 0x20 := by simpa [Solid] using h
    have hutf8 : utf8 " " = [0x20] := rfl
    rw [hutf8]
    simp [skipText, hb]

theorem skipText_comma {s : Bytes} (h : Solid s) :
    skipText (utf8 ", ") (utf8 ", " ++ s) = some s := skipText_blank h

theorem skipText_colon (s : Bytes) : skipText (utf8 ":") (utf8 ":" ++ s) = some s := rfl

theorem solid_fixed (width n : Nat) (rest : Bytes) : Solid (fixed (width + 1) n ++ rest) := by
  obtain ⟨b, ds, hds⟩ := exists_cons_of_length_eq_add_one (Rfc3339.length_fixed (width + 1) n)
  have hb := Rfc3339.isDigit_fixed (width + 1) n b (hds ▸ mem_cons_self)
  rw [hds]
  have hne : b ≠ 0x20 := by
    rintro rfl
    cases hb
  simpa [Solid] using hne

theorem solid_month {month : Nat} {monthName : String}
    (h : shortMonthNames[month]? = some monthName) (rest : Bytes) :
    Solid (utf8 monthName ++ rest) := by
  have hlt : month < 12 := (List.getElem?_eq_some_iff.mp h).1
  unfold Solid
  interval_cases month <;>
    (simp only [shortMonthNames, List.getElem?_cons_zero, List.getElem?_cons_succ,
      Option.some.injEq] at h; subst h; rfl)

variable (lookupName : LookupName)

/-- The date of a moment is read back, whatever day of the week it names. -/
theorem parseTime_imfDate {weekDay monthName : String} (hday : weekDay ∈ shortDayNames)
    {m : Rfc3339.Moment} (hmonth : shortMonthNames[m.month - 1]? = some monthName)
    (hyear : m.year < 10 ^ 4) (hnanos : m.nanos = 0) :
    parseTime lookupName (imfDate weekDay monthName m) = some m.instant := by
  have hhour := m.hour_lt
  have hminute := m.minute_lt
  have hsecond := m.second_lt
  obtain ⟨i, hweek⟩ := lookup_weekDay hday (utf8 ", " ++ (fixed 2 m.day ++ (utf8 " " ++
    (utf8 monthName ++ (utf8 " " ++ (fixed 4 m.year ++ (utf8 " " ++ (fixed 2 m.hour ++
    (utf8 ":" ++ (fixed 2 m.minute ++ (utf8 ":" ++ (fixed 2 m.second ++ utf8 " GMT"))))))))))))
  have hfraction : getNanos (utf8 " GMT") = (0, utf8 " GMT") := rfl
  have hend : skipText (utf8 " GMT") (utf8 " GMT") = some [] := rfl
  have hread : readChunks {} (imfDate weekDay monthName m) timeFormat =
      some ({ year := m.year, month := m.month, day := m.day, hour := m.hour,
              minute := m.minute, second := m.second }, []) := by
    simp only [timeFormat, imfDate, readChunks, readChunk, hweek, map_some,
      bind_some, skipText_comma (solid_fixed 1 _ _), Rfc3339.getnum_fixed m.month_lt.2,
      skipText_blank (solid_month hmonth _), lookup_month hmonth m.valid.1.1,
      skipText_blank (solid_fixed 3 _ _), Rfc3339.getYear_fixed hyear,
      skipText_blank (solid_fixed 1 _ _), Rfc3339.getnum_fixed (show m.hour < 10 ^ 2 by omega),
      skipText_colon, Rfc3339.getnum_fixed (show m.minute < 10 ^ 2 by omega),
      Rfc3339.getnum_fixed (show m.second < 10 ^ 2 by omega), hfraction, hend,
      bind_eq_bind, if_pos hhour, if_pos hminute, if_pos hsecond]
  have hlayout : parseLayout lookupName (imfDate weekDay monthName m) timeFormat =
      some m.instant := by
    unfold parseLayout
    rw [hread]
    simp only [bind_eq_bind, bind_some, bind_none, getD_none]
    rw [if_pos ⟨trivial, m.valid.2⟩, Rfc3339.Moment.instant, hnanos, Int.sub_zero]
  rw [parseTime, List.findSome?_cons, hlayout]

end GolangBasics.HttpDate
