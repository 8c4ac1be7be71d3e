import GolangBasics.Rfc3339
import Mathlib.Data.Nat.Find
import Mathlib.Order.Monotone.Basic

/-! The date of a day, and that it is the one day with that date. -/
namespace GolangBasics.Rfc3339
open List

/-- The year that a day falls in, counted from the first day of year 0: the last one that has
begun. -/
def yearOf (d : Nat) : Nat := Nat.findGreatest (fun y => dayNumber y 1 1 ≤ d) (d / 365)

def monthOf (year d : Nat) : Nat := Nat.findGreatest (fun m => dayNumber year m 1 ≤ d) 12

def cycleDays : Nat := 146097

def date (d : Int) : Int × Nat × Nat :=
  let rest := (d % cycleDays).toNat
  let year := yearOf rest
  let month := monthOf year rest
  (400 * (d / cycleDays) + year, month, rest - dayNumber year month 1 + 1)

def Valid (year month day : Nat) : Prop :=
  (1 ≤ month ∧ month ≤ 12) ∧ 1 ≤ day ∧ day ≤ daysIn month year

section
variable {year month day d : Nat}

theorem dayNumber_newYear (year : Nat) : dayNumber year 1 1 =
    365 * year + (year + 3) / 4 - (year + 99) / 100 + (year + 399) / 400 := rfl

theorem dayNumber_day (year month day : Nat) :
    dayNumber year month day = dayNumber year month 1 + (day - 1) := rfl

theorem dayNumber_succ (hmonth : 1 ≤ month) :
    dayNumber year (month + 1) 1 = dayNumber year month 1 + daysIn month year := by
  have hlength : 1 ≤ (List.range month).length := by rwa [length_range]
  unfold dayNumber
  rw [range_succ, drop_append_of_le_length hlength, foldl_append]
  simp only [foldl_cons, foldl_nil]
  omega

theorem leaps_succ (year : Nat) :
    (year + 4) / 4 + (year + 99) / 100 + (year + 400) / 400 + (if isLeap year then 0 else 1) =
      (year + 3) / 4 + (year + 100) / 100 + (year + 399) / 400 + 1 := by
  have h4 : (year + 4) / 4 = (year + 3) / 4 + if year % 4 = 0 then 1 else 0 := by
    split <;> omega
  have h100 : (year + 100) / 100 = (year + 99) / 100 + if year % 100 = 0 then 1 else 0 := by
    split <;> omega
  have h400 : (year + 400) / 400 = (year + 399) / 400 + if year % 400 = 0 then 1 else 0 := by
    split <;> omega
  have hcentury : year % 100 = 0 → year % 4 = 0 := by omega
  have hfour : year % 400 = 0 → year % 100 = 0 := by omega
  rw [h4, h100, h400]
  by_cases hy4 : year % 4 = 0 <;> by_cases hy100 : year % 100 = 0 <;>
    by_cases hy400 : year % 400 = 0 <;> simp [isLeap, hy4, hy100, hy400] <;> omega

theorem dayNumber_thirteen (year : Nat) : dayNumber year 13 1 = dayNumber (year + 1) 1 1 := by
  have hmonths : (List.range 13).drop 1 = [1, 2, 3, 4, 5, 6, 7, 8, 9, 10, 11, 12] := rfl
  have hsum : ((List.range 13).drop 1).foldl (fun n m => n + daysIn m year) 0 +
      (if isLeap year then 0 else 1) = 366 := by
    rw [hmonths]
    cases h : isLeap year <;> simp [daysIn, h]
  have hleaps := leaps_succ year
  have hcenturies : (year + 100) / 100 ≤ year + 1 := by omega
  have hcenturies' : (year + 99) / 100 ≤ year := by omega
  rw [dayNumber_newYear]
  unfold dayNumber
  -- only the sums of the quotients matter
  generalize ((List.range 13).drop 1).foldl (fun n m => n + daysIn m year) 0 = days at hsum ⊢
  generalize (if isLeap year then 0 else 1) = leap at hsum hleaps
  simp only [Nat.add_assoc, Nat.reduceAdd] at *
  generalize (year + 3) / 4 = a, (year + 4) / 4 = a', (year + 99) / 100 = b,
    (year + 100) / 100 = b', (year + 399) / 400 = c, (year + 400) / 400 = c' at *
  omega

theorem dayNumber_newYear_mono : Monotone fun year => dayNumber year 1 1 := by
  refine monotone_nat_of_le_succ fun year => ?_
  simp only [dayNumber_newYear]
  omega

theorem dayNumber_month_mono (year : Nat) : Monotone fun month => dayNumber year (month + 1) 1 := by
  refine monotone_nat_of_le_succ fun month => ?_
  rw [dayNumber_succ (Nat.le_add_left 1 month)]
  exact Nat.le_add_right _ _

theorem yearOf_spec (d : Nat) :
    dayNumber (yearOf d) 1 1 ≤ d ∧ d < dayNumber (yearOf d + 1) 1 1 := by
  refine ⟨Nat.findGreatest_spec (P := fun y => dayNumber y 1 1 ≤ d) (Nat.zero_le _)
    (Nat.zero_le d), Nat.lt_of_not_le fun hle => ?_⟩
  have hdays : 365 * (yearOf d + 1) ≤ dayNumber (yearOf d + 1) 1 1 := by
    rw [dayNumber_newYear]
    omega
  have hbound : yearOf d + 1 ≤ d / 365 := by omega
  exact Nat.findGreatest_is_greatest (Nat.lt_succ_self _) hbound hle

theorem yearOf_eq (hlow : dayNumber year 1 1 ≤ d) (hhigh : d < dayNumber (year + 1) 1 1) :
    yearOf d = year := by
  obtain ⟨hlow', hhigh'⟩ := yearOf_spec d
  apply Nat.le_antisymm
  · refine Nat.le_of_not_lt fun hlt => ?_
    have hmono := dayNumber_newYear_mono (Nat.succ_le_of_lt hlt)
    exact Nat.lt_irrefl d (hhigh.trans_le (hmono.trans hlow'))
  · refine Nat.le_of_not_lt fun hlt => ?_
    have hmono := dayNumber_newYear_mono (Nat.succ_le_of_lt hlt)
    exact Nat.lt_irrefl d (hhigh'.trans_le (hmono.trans hlow))

theorem dayNumber_lt (h : Valid year month day) :
    dayNumber year month day < dayNumber year (month + 1) 1 := by
  obtain ⟨hmonth, hday⟩ := h
  rw [dayNumber_succ hmonth.1, dayNumber_day]
  omega

theorem monthOf_spec (hlow : dayNumber year 1 1 ≤ d) (hhigh : d < dayNumber (year + 1) 1 1) :
    Valid year (monthOf year d) (d - dayNumber year (monthOf year d) 1 + 1) ∧
      dayNumber year (monthOf year d) 1 ≤ d := by
  have hfirst : 1 ≤ monthOf year d := Nat.le_findGreatest (by decide) hlow
  have hlast : monthOf year d ≤ 12 := Nat.findGreatest_le 12
  have hbegun : dayNumber year (monthOf year d) 1 ≤ d :=
    Nat.findGreatest_spec (P := fun m => dayNumber year m 1 ≤ d) (m := 1) (by decide) hlow
  have hnext : d < dayNumber year (monthOf year d + 1) 1 := by
    by_cases hdecember : monthOf year d = 12
    · rw [hdecember, dayNumber_thirteen]
      exact hhigh
    · have hmore : monthOf year d + 1 ≤ 12 := by omega
      have hnot := Nat.findGreatest_is_greatest (P := fun m => dayNumber year m 1 ≤ d)
        (Nat.lt_succ_self _) hmore
      exact Nat.lt_of_not_le hnot
  rw [dayNumber_succ hfirst] at hnext
  exact ⟨⟨⟨hfirst, hlast⟩, by omega, by omega⟩, hbegun⟩

theorem monthOf_eq (h : Valid year month day) : monthOf year (dayNumber year month day) = month := by
  refine Nat.findGreatest_eq_iff.mpr ⟨h.1.2, fun _ => ?_, fun n hn _ hle => ?_⟩
  · rw [dayNumber_day]
    exact Nat.le_add_right _ _
  · obtain ⟨k, rfl⟩ := Nat.exists_eq_add_of_le' (Nat.one_le_of_lt hn)
    have hlt := dayNumber_lt h
    have hmono := dayNumber_month_mono year (Nat.le_of_lt_succ hn)
    dsimp only at hmono
    omega

theorem dayNumber_newYear_le (h : Valid year month day) :
    dayNumber year 1 1 ≤ dayNumber year month day ∧
      dayNumber year month day < dayNumber (year + 1) 1 1 := by
  have hlt := dayNumber_lt h
  obtain ⟨k, rfl⟩ := Nat.exists_eq_add_of_le' h.1.1
  have hfirst : dayNumber year 1 1 ≤ dayNumber year (k + 1) 1 :=
    dayNumber_month_mono year (Nat.zero_le k)
  have hlast : dayNumber year (k + 1 + 1) 1 ≤ dayNumber year 13 1 :=
    dayNumber_month_mono year (show k + 1 ≤ 12 from h.1.2)
  rw [dayNumber_thirteen] at hlast
  have hday := dayNumber_day year (k + 1) day
  omega

/-- Every day from year 0 on has a date. -/
theorem exists_date (d : Nat) :
    ∃ year month day, Valid year month day ∧ dayNumber year month day = d := by
  obtain ⟨hlow, hhigh⟩ := yearOf_spec d
  obtain ⟨hvalid, hmonth⟩ := monthOf_spec hlow hhigh
  refine ⟨_, _, _, hvalid, ?_⟩
  rw [dayNumber_day, Nat.add_sub_cancel]
  omega

theorem daysIn_cycle (q year month : Nat) : daysIn month (400 * q + year) = daysIn month year := by
  have h4 : (400 * q + year) % 4 = year % 4 := by omega
  have h100 : (400 * q + year) % 100 = year % 100 := by omega
  have h400 : (400 * q + year) % 400 = year % 400 := by omega
  unfold daysIn isLeap
  rw [h4, h100, h400]

/-- The calendar repeats itself. -/
theorem dayNumber_cycle (q year month day : Nat) :
    dayNumber (400 * q + year) month day = cycleDays * q + dayNumber year month day := by
  have h4 : (400 * q + year + 3) / 4 = 100 * q + (year + 3) / 4 := by omega
  have h100 : (400 * q + year + 99) / 100 = 4 * q + (year + 99) / 100 := by omega
  have h400 : (400 * q + year + 399) / 400 = q + (year + 399) / 400 := by omega
  have hcenturies : (year + 99) / 100 ≤ year := by omega
  unfold dayNumber cycleDays
  simp only [daysIn_cycle, h4, h100, h400]
  generalize (year + 3) / 4 = a, (year + 99) / 100 = b, (year + 399) / 400 = c at *
  omega

theorem date_dayNumber (h : Valid year month day) :
    date (dayNumber year month day) = ((year : Int), month, day) := by
  have hyear : 400 * (year / 400) + year % 400 = year := Nat.div_add_mod year 400
  generalize year / 400 = q, hy : year % 400 = y at hyear
  have hcut : y < 400 := hy ▸ Nat.mod_lt year (by decide)
  have hvalid : Valid y month day := by
    unfold Valid at h
    rwa [← hyear, daysIn_cycle] at h
  obtain ⟨hlow, hhigh⟩ := dayNumber_newYear_le hvalid
  have hlt : dayNumber y month day < cycleDays :=
    hhigh.trans_le (dayNumber_newYear_mono (show y + 1 ≤ 400 from hcut))
  have hday := dayNumber_day y month day
  have hnumber : dayNumber year month day = dayNumber y month day + cycleDays * q := by
    rw [← hyear, dayNumber_cycle, Nat.add_comm]
  have hrest : ((dayNumber year month day : Int) % cycleDays).toNat = dayNumber y month day := by
    rw [← Int.natCast_emod, Int.toNat_natCast, hnumber, Nat.add_mul_mod_self_left,
      Nat.mod_eq_of_lt hlt]
  have hcycles : (dayNumber year month day : Int) / cycleDays = q := by
    rw [← Int.natCast_ediv, hnumber, Nat.add_mul_div_left _ _ (by decide), Nat.div_eq_of_lt hlt,
      Nat.zero_add]
  unfold date
  dsimp only
  rw [hrest, hcycles, yearOf_eq hlow hhigh, monthOf_eq hvalid]
  refine Prod.ext ?_ (Prod.ext rfl ?_)
  · dsimp only
    omega
  · have hpos := h.2.1
    dsimp only
    omega

end

theorem nonneg_of_date {d : Int} (h : 0 ≤ (date d).1) : 0 ≤ d := by
  have hpos : (0 : Int) < cycleDays := by decide
  have hrest : (d % cycleDays).toNat < cycleDays := by
    have hlt := Int.emod_lt_of_pos d hpos
    omega
  have hyear : yearOf (d % cycleDays).toNat < 400 := by
    refine Nat.lt_of_not_le fun hle => ?_
    have hmono := dayNumber_newYear_mono hle
    exact Nat.lt_irrefl _ (hrest.trans_le (hmono.trans (yearOf_spec _).1))
  have hdate : (date d).1 = 400 * (d / cycleDays) + yearOf (d % cycleDays).toNat := rfl
  have hcycles : 0 ≤ d / cycleDays := by omega
  exact (Int.ediv_nonneg_iff_of_pos hpos).mp hcycles

end GolangBasics.Rfc3339
