import GolangBasics.Rfc3339.Date
import Mathlib.Data.List.DropRight
import Mathlib.Data.List.TakeDrop

/-! `time.Format` with the layout `time.RFC3339Nano`, in UTC. -/
namespace GolangBasics.Rfc3339
open List Option
open Json (isDigit)

def digitByte (n : Nat) : UInt8 := UInt8.ofNat (0x30 + n)

def decimal (n : Nat) : Bytes := (Nat.toDigits 10 n).map fun c => UInt8.ofNat c.toNat

/-- `appendInt`: the number, filled up with zeros to `width`. -/
def appendInt (x : Int) (width : Nat) : Bytes :=
  (if x < 0 then [0x2D] else []) ++
    List.replicate (width - (decimal x.natAbs).length) 0x30 ++ decimal x.natAbs

/-- `appendNano`: a fraction of a second without the zeros at its end, and nothing for none. -/
def appendNano (n : Nat) : Bytes :=
  if n = 0 then [] else 0x2E :: (appendInt n 9).rdropWhile (· = 0x30)

/-- The time in nanoseconds since 1970. -/
def format (t : Int) : Bytes :=
  let seconds := t / 1000000000
  let (year, month, day) := date (seconds / 86400 + dayNumber 1970 1 1)
  let second := seconds % 86400
  appendInt year 4 ++ (0x2D :: (appendInt month 2 ++ (0x2D :: (appendInt day 2 ++
    (0x54 :: (appendInt (second / 3600) 2 ++ (0x3A :: (appendInt (second % 3600 / 60) 2 ++
    (0x3A :: (appendInt (second % 60) 2 ++
    (appendNano (t % 1000000000).toNat ++ [0x5A])))))))))))

example : format 1709204400500000000 = utf8 "2024-02-29T11:00:00.5Z" := by decide +kernel

def fixed : Nat → Nat → Bytes
  | 0, _ => []
  | width + 1, n => fixed width (n / 10) ++ [digitByte (n % 10)]

theorem length_fixed (width n : Nat) : (fixed width n).length = width := by
  induction width generalizing n with
  | zero => rfl
  | succ width ih => rw [fixed, length_append, ih, length_singleton]

theorem fixed_zero (width : Nat) : fixed width 0 = List.replicate width 0x30 := by
  induction width with
  | zero => rfl
  | succ width ih =>
    rw [fixed, Nat.zero_div, ih, List.replicate_succ']
    rfl

theorem decimal_of_lt {n : Nat} (h : n < 10) : decimal n = [digitByte n] := by
  have hall : ∀ n < 10, decimal n = [digitByte n] := by decide
  exact hall n h

theorem decimal_of_le {n : Nat} (h : 10 ≤ n) :
    decimal n = decimal (n / 10) ++ [digitByte (n % 10)] := by
  have hall : ∀ n < 10, UInt8.ofNat (Nat.digitChar n).toNat = digitByte n := by decide
  unfold decimal
  rw [Nat.toDigits_of_base_le (by decide) h, map_append, map_singleton,
    hall _ (Nat.mod_lt n (by decide))]

variable {width : Nat}

theorem appendInt_eq {n : Nat} (hn : n < 10 ^ (width + 1)) :
    appendInt n (width + 1) = fixed (width + 1) n := by
  have hsign : ¬ (n : Int) < 0 := by omega
  unfold appendInt
  rw [if_neg hsign, Int.natAbs_natCast, nil_append]
  induction width generalizing n with
  | zero =>
    have hn : n < 10 := hn
    rw [decimal_of_lt hn]
    simp only [fixed, Nat.mod_eq_of_lt hn]
    rfl
  | succ width ih =>
    by_cases hlt : n < 10
    · rw [decimal_of_lt hlt, fixed, Nat.div_eq_of_lt hlt, Nat.mod_eq_of_lt hlt, fixed_zero]
      rfl
    · have hpow : n / 10 < 10 ^ (width + 1) := by
        rw [Nat.pow_succ] at hn
        omega
      have hlength (k : Nat) : width + 1 + 1 - (k + 1) = width + 1 - k := by omega
      rw [decimal_of_le (by omega), length_append, length_singleton, hlength,
        ← append_assoc, ih hpow (by omega)]
      rfl

theorem isDigit_digitByte {n : Nat} (h : n < 10) :
    isDigit (digitByte n) = true ∧ digit (digitByte n) = n := by
  have hall : ∀ n < 10, isDigit (digitByte n) = true ∧ digit (digitByte n) = n := by decide
  exact hall n h

variable {b : UInt8}

theorem digitByte_digit (h : isDigit b = true) : digitByte (digit b) = b ∧ digit b < 10 := by
  have hall : ∀ n < 256, isDigit (UInt8.ofNat n) = true →
      digitByte (digit (UInt8.ofNat n)) = UInt8.ofNat n ∧ digit (UInt8.ofNat n) < 10 := by
    decide +kernel
  have hb := hall b.toNat b.toNat_lt
  rw [UInt8.ofNat_toNat] at hb
  exact hb h

theorem isDigit_fixed (width n : Nat) : ∀ b ∈ fixed width n, isDigit b = true := by
  induction width generalizing n with
  | zero => nofun
  | succ width ih =>
    intro b hb
    obtain hb | hb := mem_append.mp hb
    · exact ih (n / 10) b hb
    · rw [mem_singleton.mp hb]
      exact (isDigit_digitByte (Nat.mod_lt n (by decide))).1

def value (ds : Bytes) : Nat := ds.foldl (fun n b => n * 10 + digit b) 0

theorem value_concat (ds : Bytes) (b : UInt8) : value (ds ++ [b]) = value ds * 10 + digit b := by
  unfold value
  rw [foldl_append]
  rfl

theorem value_fixed {n : Nat} (h : n < 10 ^ width) : value (fixed width n) = n := by
  induction width generalizing n with
  | zero =>
    have hn : n = 0 := Nat.lt_one_iff.mp h
    rw [hn]
    rfl
  | succ width ih =>
    have hpow : n / 10 < 10 ^ width := by
      rw [Nat.pow_succ] at h
      omega
    rw [fixed, value_concat, ih hpow, (isDigit_digitByte (Nat.mod_lt n (by decide))).2]
    omega

variable {ds : Bytes}

theorem fixed_value (h : ∀ b ∈ ds, isDigit b = true) :
    fixed ds.length (value ds) = ds ∧ value ds < 10 ^ ds.length := by
  induction ds using List.reverseRecOn with
  | nil => exact ⟨rfl, Nat.one_pos⟩
  | append_singleton ds b ih =>
    obtain ⟨hds, hlt⟩ := ih fun c hc => h c (mem_append_left [b] hc)
    obtain ⟨hb, hdigit⟩ := digitByte_digit (h b (mem_append_right ds mem_cons_self))
    rw [length_append, length_singleton, value_concat, fixed]
    constructor
    · have hdiv : (value ds * 10 + digit b) / 10 = value ds := by omega
      have hmod : (value ds * 10 + digit b) % 10 = digit b := by omega
      rw [hdiv, hmod, hds, hb]
    · rw [Nat.pow_succ]
      omega

theorem value_zeros (ds : Bytes) (k : Nat) :
    value (ds ++ List.replicate k 0x30) = value ds * 10 ^ k := by
  induction k with
  | zero => simp
  | succ k ih =>
    rw [List.replicate_succ', ← append_assoc, value_concat, ih, Nat.pow_succ, Nat.mul_assoc]
    rfl

section
variable {s rest : Bytes} {n : Nat}

theorem skip_eq_some : skip b s = some rest ↔ s = b :: rest := by
  cases s with
  | nil => simp [skip]
  | cons c tl =>
    simp only [skip]
    split_ifs with h
    · simp [h]
    · simp [h]

theorem getYear_fixed (hlt : n < 10 ^ 4) : getYear (fixed 4 n ++ rest) = some (n, rest) := by
  obtain ⟨a, b, c, d, hds⟩ : ∃ a b c d, fixed 4 n = [a, b, c, d] := ⟨_, _, _, _, rfl⟩
  have hvalue := value_fixed hlt
  have hdigits := isDigit_fixed 4 n
  rw [hds] at hvalue hdigits
  simp only [value, foldl_cons, foldl_nil, Nat.zero_mul, Nat.zero_add] at hvalue
  rw [hds]
  simp only [getYear, cons_append, nil_append, List.all_eq_true.mpr hdigits, if_true,
    hvalue]

theorem getYear_some (h : getYear s = some (n, rest)) : n < 10 ^ 4 ∧ s = fixed 4 n ++ rest := by
  unfold getYear at h
  split at h
  · rename_i a b c d tl
    split_ifs at h with hdigits
    obtain ⟨rfl, rfl⟩ := Prod.mk.inj (some.inj h)
    obtain ⟨hfixed, hlt⟩ := fixed_value (List.all_eq_true.mp hdigits)
    simp only [value, foldl_cons, foldl_nil, Nat.zero_mul, Nat.zero_add] at hfixed hlt
    exact ⟨hlt, congrArg (· ++ tl) hfixed.symm⟩
  · cases h

theorem getnum_fixed (hlt : n < 10 ^ 2) (width : Bool) :
    getnum width (fixed 2 n ++ rest) = some (n, rest) := by
  obtain ⟨a, b, hds⟩ : ∃ a b, fixed 2 n = [a, b] := ⟨_, _, rfl⟩
  have hvalue := value_fixed hlt
  have hdigits := isDigit_fixed 2 n
  rw [hds] at hvalue hdigits
  simp only [value, foldl_cons, foldl_nil, Nat.zero_mul, Nat.zero_add] at hvalue
  rw [hds]
  simp only [getnum, cons_append, nil_append, hdigits a mem_cons_self,
    hdigits b (mem_cons_of_mem a mem_cons_self), Bool.not_true, Bool.false_eq_true,
    if_false, if_true, hvalue]

/-- Two digits, or one that another byte follows. -/
theorem getnum_some {width : Bool} (h : getnum width s = some (n, rest)) :
    (n < 10 ^ 2 ∧ s = fixed 2 n ++ rest) ∨
      width = false ∧ ∃ b, isDigit b = true ∧ s = b :: rest := by
  unfold getnum at h
  split at h
  · rename_i a b tl
    split_ifs at h with ha hb
    · obtain ⟨rfl, rfl⟩ := Prod.mk.inj (some.inj h)
      have hdigits : ∀ c ∈ [a, b], isDigit c = true := by simp_all
      obtain ⟨hfixed, hlt⟩ := fixed_value hdigits
      simp only [value, foldl_cons, foldl_nil, Nat.zero_mul, Nat.zero_add] at hfixed hlt
      exact .inl ⟨hlt, congrArg (· ++ tl) hfixed.symm⟩
    · obtain ⟨rfl, rfl⟩ := Prod.mk.inj (some.inj h)
      exact .inr ⟨by simp_all, a, by simp_all, rfl⟩
  · rename_i a
    split_ifs at h with ha
    obtain ⟨rfl, rfl⟩ := Prod.mk.inj (some.inj h)
    exact .inr ⟨by simp_all, a, by simp_all, rfl⟩
  · cases h

theorem getnum_true_some (h : getnum true s = some (n, rest)) :
    n < 10 ^ 2 ∧ s = fixed 2 n ++ rest :=
  (getnum_some h).resolve_right fun h => nomatch h.1

/-- Digits that do not end in a zero are a fraction as it is printed. -/
structure Fraction (ds : Bytes) : Prop where
  digits : ∀ b ∈ ds, isDigit b = true
  nonempty : ds ≠ []
  short : ds.length ≤ 9
  trimmed : ds.getLast? ≠ some 0x30

def nanosOf (ds : Bytes) : Nat := value ds * 10 ^ (9 - ds.length)

theorem nanosOf_lt (hdigits : ∀ b ∈ ds, isDigit b = true) (hshort : ds.length ≤ 9) :
    nanosOf ds < 10 ^ 9 := by
  obtain ⟨-, hlt⟩ := fixed_value hdigits
  calc nanosOf ds < 10 ^ ds.length * 10 ^ (9 - ds.length) :=
        Nat.mul_lt_mul_of_pos_right hlt (Nat.pow_pos (by decide))
    _ = 10 ^ 9 := by rw [← Nat.pow_add, Nat.add_sub_cancel' hshort]

theorem Fraction.value_pos (h : Fraction ds) : 0 < value ds := by
  obtain hnil | ⟨ds', b, rfl⟩ := eq_nil_or_concat ds
  · exact absurd hnil h.nonempty
  · rw [concat_eq_append] at h ⊢
    obtain ⟨hb, -⟩ := digitByte_digit (h.digits b (mem_append_right ds' mem_cons_self))
    rw [value_concat]
    refine Nat.lt_of_lt_of_le (Nat.pos_of_ne_zero fun hzero => ?_) (Nat.le_add_left _ _)
    rw [hzero] at hb
    exact h.trimmed (by rw [List.getLast?_concat, ← hb]; rfl)

theorem rdropWhile_zeros (h : ds.getLast? ≠ some 0x30) (k : Nat) :
    (ds ++ List.replicate k 0x30).rdropWhile (fun b => decide (b = 0x30)) = ds := by
  induction k with
  | zero =>
    rw [replicate_zero, append_nil]
    refine rdropWhile_eq_self_iff.mpr fun hne hlast => h ?_
    rw [List.getLast?_eq_getLast_of_ne_nil hne, of_decide_eq_true hlast]
  | succ k ih =>
    rw [List.replicate_succ', ← append_assoc, rdropWhile_concat_pos _ _ _ rfl]
    exact ih

theorem Fraction.appendNano (h : Fraction ds) : appendNano (nanosOf ds) = 0x2E :: ds := by
  have hne : nanosOf ds ≠ 0 :=
    Nat.ne_of_gt (Nat.mul_pos h.value_pos (Nat.pow_pos (by decide)))
  have hfilled : fixed 9 (nanosOf ds) = ds ++ List.replicate (9 - ds.length) 0x30 := by
    have hdigits : ∀ b ∈ ds ++ List.replicate (9 - ds.length) 0x30, isDigit b = true := by
      intro b hb
      obtain hb | hb := mem_append.mp hb
      · exact h.digits b hb
      · rw [eq_of_mem_replicate hb]
        rfl
    obtain ⟨hfixed, -⟩ := fixed_value hdigits
    rwa [value_zeros, length_append, List.length_replicate, Nat.add_sub_cancel' h.short]
      at hfixed
  unfold Rfc3339.appendNano
  rw [if_neg hne, appendInt_eq (nanosOf_lt h.digits h.short), hfilled, rdropWhile_zeros h.trimmed]

theorem exists_fraction (hpos : n ≠ 0) (hn : n < 10 ^ 9) : ∃ ds, Fraction ds ∧ nanosOf ds = n := by
  have hsplit := rdropWhile_append_rtakeWhile (p := fun b => decide (b = 0x30)) (l := fixed 9 n)
  generalize hds : (fixed 9 n).rdropWhile (fun b => decide (b = 0x30)) = ds at hsplit
  have hzeros : ∀ b ∈ (fixed 9 n).rtakeWhile (fun b => decide (b = 0x30)), b = 0x30 :=
    fun b hb => of_decide_eq_true (mem_rtakeWhile_imp (p := fun b => decide (b = 0x30)) hb)
  generalize (fixed 9 n).rtakeWhile (fun b => decide (b = 0x30)) = zeros at hsplit hzeros
  have hlength := congrArg List.length hsplit
  rw [length_append, length_fixed] at hlength
  have hvalue : nanosOf ds = n := by
    have hall := value_fixed hn
    rw [← hsplit, eq_replicate_of_mem hzeros, value_zeros] at hall
    have hcount : 9 - ds.length = zeros.length := by omega
    rwa [nanosOf, hcount]
  refine ⟨ds, ⟨fun b hb => ?_, ?_, by omega, ?_⟩, hvalue⟩
  · exact isDigit_fixed 9 n b (hsplit ▸ mem_append_left _ hb)
  · rintro rfl
    exact hpos (hvalue.symm.trans (Nat.zero_mul _))
  · intro hlast
    have hne : (fixed 9 n).rdropWhile (fun b => decide (b = 0x30)) ≠ [] := by
      rw [hds]
      rintro rfl
      cases hlast
    have hnot := rdropWhile_last_not (fun b => decide (b = 0x30)) (fixed 9 n) hne
    rw [← hds, List.getLast?_eq_getLast_of_ne_nil hne] at hlast
    exact hnot (decide_eq_true (some.inj hlast))

theorem span_digits (hds : ∀ b ∈ ds, isDigit b = true) {z : UInt8} (hz : isDigit z = false) :
    (ds ++ z :: rest).span isDigit = (ds, z :: rest) := by
  rw [span_eq_takeWhile_dropWhile, takeWhile_append_of_pos hds,
    dropWhile_append_of_pos hds]
  simp [hz]

theorem getNanos_fraction (h : Fraction ds) {z : UInt8} (hz : isDigit z = false) :
    getNanos (0x2E :: (ds ++ z :: rest)) = (nanosOf ds, z :: rest) := by
  have hne : ds.isEmpty = false := isEmpty_eq_false_iff.mpr h.nonempty
  unfold getNanos
  simp only [span_digits h.digits hz, hne, take_of_length_le h.short]
  rfl

theorem getNanos_eq {tail : Bytes} (h : getNanos s = (n, tail)) :
    (s = tail ∧ n = 0) ∨ ∃ p ds, s = p :: (ds ++ tail) ∧ (p = 0x2E ∨ p = 0x2C) ∧
      (∀ b ∈ ds, isDigit b = true) ∧ ds ≠ [] ∧ n = nanosOf (ds.take 9) := by
  unfold getNanos at h
  split at h
  · rename_i p rest'
    simp only [span_eq_takeWhile_dropWhile] at h
    split_ifs at h with hp
    · obtain ⟨rfl, rfl⟩ := Prod.mk.inj h
      simp only [Bool.and_eq_true, Bool.or_eq_true, decide_eq_true_eq, Bool.not_eq_true',
        isEmpty_eq_false_iff] at hp
      refine .inr ⟨p, rest'.takeWhile isDigit, ?_, hp.1, fun b hb => mem_takeWhile_imp hb,
        hp.2, ?_⟩
      · rw [takeWhile_append_dropWhile]
      · rw [nanosOf, value]
    · obtain ⟨rfl, rfl⟩ := Prod.mk.inj h
      exact .inl ⟨rfl, rfl⟩
  · obtain ⟨rfl, rfl⟩ := Prod.mk.inj h
    exact .inl ⟨rfl, rfl⟩

end

def stamp (year month day : Nat) (hour : Bytes) (minute second : Nat) : Bytes :=
  fixed 4 year ++ (0x2D :: (fixed 2 month ++ (0x2D :: (fixed 2 day ++ (0x54 :: (hour ++
    (0x3A :: (fixed 2 minute ++ (0x3A :: fixed 2 second)))))))))

/-- An instant by its date and time of day in UTC, from year 0 on. -/
structure Moment where
  year : Nat
  month : Nat
  day : Nat
  hour : Nat
  minute : Nat
  second : Nat
  nanos : Nat
  valid : Valid year month day
  hour_lt : hour < 24
  minute_lt : minute < 60
  second_lt : second < 60
  nanos_lt : nanos < 10 ^ 9

def Moment.instant (m : Moment) : Int :=
  ((((dayNumber m.year m.month m.day : Int) - dayNumber 1970 1 1) * 24 + m.hour) * 3600 +
    m.minute * 60 + m.second) * 1000000000 + m.nanos

def dayOf (t : Int) : Int := t / 1000000000 / 86400 + dayNumber 1970 1 1

def utcYear (t : Int) : Int := (date (dayOf t)).1

namespace Moment
variable (m : Moment)

theorem seconds : m.instant / 1000000000 =
    ((dayNumber m.year m.month m.day : Int) - dayNumber 1970 1 1) * 86400 +
      (m.hour * 3600 + m.minute * 60 + m.second) ∧ m.instant % 1000000000 = m.nanos := by
  have hnanos := m.nanos_lt
  unfold instant
  omega

theorem dayOf_instant : dayOf m.instant = dayNumber m.year m.month m.day := by
  have hhour := m.hour_lt
  have hminute := m.minute_lt
  have hsecond := m.second_lt
  unfold dayOf
  rw [m.seconds.1]
  omega

theorem utcYear_instant : utcYear m.instant = m.year := by
  unfold utcYear
  rw [m.dayOf_instant, date_dayNumber m.valid]

theorem month_lt : m.month < 10 ^ 2 ∧ m.day < 10 ^ 2 := by
  have hdays : daysIn m.month m.year ≤ 31 := by
    unfold daysIn
    split_ifs <;> decide
  obtain ⟨hmonth, hday⟩ := m.valid
  omega

theorem format_instant (hyear : m.year < 10 ^ 4) :
    format m.instant = stamp m.year m.month m.day (fixed 2 m.hour) m.minute m.second ++
      (appendNano m.nanos ++ [0x5A]) := by
  have hhour := m.hour_lt
  have hminute := m.minute_lt
  have hsecond := m.second_lt
  obtain ⟨hmonth, hday⟩ := m.month_lt
  obtain ⟨hseconds, hnanos⟩ := m.seconds
  have hdate : date (m.instant / 1000000000 / 86400 + dayNumber 1970 1 1) =
      ((m.year : Int), m.month, m.day) := by
    rw [← date_dayNumber m.valid, ← m.dayOf_instant, dayOf]
  have hrest : m.instant / 1000000000 % 86400 = m.hour * 3600 + m.minute * 60 + m.second := by
    rw [hseconds]
    omega
  have hours : ((m.hour : Int) * 3600 + m.minute * 60 + m.second) / 3600 = m.hour := by omega
  have minutes : ((m.hour : Int) * 3600 + m.minute * 60 + m.second) % 3600 / 60 = m.minute := by
    omega
  have seconds : ((m.hour : Int) * 3600 + m.minute * 60 + m.second) % 60 = m.second := by omega
  unfold format stamp
  simp only [hdate, hrest, hnanos, hours, minutes, seconds, Int.toNat_natCast]
  rw [appendInt_eq hyear, appendInt_eq hmonth, appendInt_eq hday, appendInt_eq (by omega),
    appendInt_eq (by omega), appendInt_eq (by omega)]
  simp only [append_assoc, cons_append]

theorem parse_stamp (hyear : m.year < 10 ^ 4) {rest : Bytes}
    (hnanos : getNanos rest = (m.nanos, [0x5A])) :
    parse (stamp m.year m.month m.day (fixed 2 m.hour) m.minute m.second ++ rest) =
      some m.instant := by
  have hskip (b : UInt8) (s : Bytes) : skip b (b :: s) = some s := skip_eq_some.mpr rfl
  have hhour := m.hour_lt
  have hminute := m.minute_lt
  have hsecond := m.second_lt
  obtain ⟨hmonth, hday⟩ := m.month_lt
  have hzone : getZone [0x5A] = some (0, []) := rfl
  unfold parse stamp
  simp only [append_assoc, cons_append, getYear_fixed hyear, getnum_fixed hmonth,
    getnum_fixed hday, getnum_fixed (show m.hour < 10 ^ 2 by omega),
    getnum_fixed (show m.minute < 10 ^ 2 by omega), getnum_fixed (show m.second < 10 ^ 2 by omega),
    hskip, hnanos, hzone, bind_eq_bind, bind_some]
  rw [if_pos ⟨rfl, m.valid.1, m.valid.2, hhour, hminute, hsecond⟩, Int.sub_zero]
  rfl

end Moment

/-- Every instant from year 0 on is the instant of a date and a time of day. -/
theorem exists_moment {t : Int} (h : 0 ≤ utcYear t) : ∃ m : Moment, m.instant = t := by
  obtain ⟨n, hn⟩ := Int.eq_ofNat_of_zero_le (nonneg_of_date h)
  obtain ⟨year, month, day, hvalid, hdate⟩ := exists_date n
  obtain ⟨k, hk⟩ := Int.eq_ofNat_of_zero_le (Int.emod_nonneg (t / 1000000000) (b := 86400) (by decide))
  obtain ⟨nanos, hnanos⟩ := Int.eq_ofNat_of_zero_le (Int.emod_nonneg t (b := 1000000000) (by decide))
  refine ⟨⟨year, month, day, k / 3600, k % 3600 / 60, k % 60, nanos, hvalid, by omega, by omega,
    by omega, by omega⟩, ?_⟩
  unfold dayOf at hn
  unfold Moment.instant
  dsimp only
  rw [hdate]
  omega

theorem parse_format {t : Int} (hlow : 0 ≤ utcYear t) (hhigh : utcYear t ≤ 9999) :
    parse (format t) = some t := by
  obtain ⟨m, rfl⟩ := exists_moment hlow
  rw [m.utcYear_instant] at hhigh
  have hyear : m.year < 10 ^ 4 := by omega
  rw [m.format_instant hyear]
  refine m.parse_stamp hyear ?_
  by_cases hzero : m.nanos = 0
  · rw [hzero]
    rfl
  · obtain ⟨ds, hds, hnanos⟩ := exists_fraction hzero m.nanos_lt
    rw [← hnanos, hds.appendNano]
    exact getNanos_fraction hds rfl

theorem mem_decimal {n : Nat} (h : b ∈ decimal n) : isDigit b = true := by
  obtain ⟨c, hc, rfl⟩ := List.mem_map.mp h
  have hdigit := Nat.isDigit_of_mem_toDigits (by decide) (by decide) hc
  obtain ⟨hlow, hhigh⟩ := Char.isDigit_iff_toNat.mp hdigit
  have hall : ∀ n < 0x3A, 0x30 ≤ n → isDigit (UInt8.ofNat n) = true := by decide
  exact hall c.toNat (Nat.lt_succ_of_le hhigh) hlow

theorem mem_appendInt {x : Int} (h : b ∈ appendInt x width) : isDigit b = true ∨ b = 0x2D := by
  unfold appendInt at h
  obtain h | h := mem_append.mp h
  · obtain h | h := mem_append.mp h
    · split_ifs at h
      · exact .inr (mem_singleton.mp h)
      · cases h
    · rw [eq_of_mem_replicate h]
      exact .inl rfl
  · exact .inl (mem_decimal h)

theorem mem_appendNano {n : Nat} (h : b ∈ appendNano n) :
    isDigit b = true ∨ b = 0x2D ∨ b = 0x2E := by
  unfold appendNano at h
  split_ifs at h
  · cases h
  · obtain h | h := mem_cons.mp h
    · exact .inr (.inr h)
    · have hmem := ( rdropWhile_prefix _ _).subset h
      exact (mem_appendInt hmem).imp_right .inl

theorem mem_format {t : Int} (h : b ∈ format t) :
    isDigit b = true ∨ b ∈ [0x2D, 0x54, 0x3A, 0x2E, 0x5A] := by
  unfold format at h
  simp only [mem_append, mem_cons, not_mem_nil, or_false] at h ⊢
  have hint {x : Int} {width : Nat} (h : b ∈ appendInt x width) := mem_appendInt h
  have hnano {n : Nat} (h : b ∈ appendNano n) := mem_appendNano h
  grind

end GolangBasics.Rfc3339
