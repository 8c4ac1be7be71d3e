import GolangBasics.Rfc3339.Format

/-! Which spellings of a time are the printed ones. `time.Parse` also takes an hour of one
digit, a comma, zeros at the end of the fraction, more than nine digits and other zones. -/
namespace GolangBasics.Rfc3339
open List Option
open Json (isDigit)

/-- The spelling that `format` chooses, among those that `parse` takes. -/
structure Canonical (s : Bytes) : Prop where
  /-- The hour has two digits. -/
  hour : s[13]? = some 0x3A
  /-- A fraction comes after a point. -/
  point : s[19]? ≠ some 0x2C
  /-- A fraction has at most nine digits. -/
  short : s.length ≤ 30
  /-- It does not end in a zero. -/
  trimmed : 20 < s.length → s[s.length - 2]? ≠ some 0x30
  utc : s.getLast? = some 0x5A

/-- What `parse` has read: the time of day as it is written, and its zone. -/
structure Reading (s : Bytes) (t : Int) extends Moment where
  zone : Int
  hourText : Bytes
  /-- What follows the seconds. -/
  rest : Bytes
  zoneText : Bytes
  spelled : s = stamp year month day hourText minute second ++ rest
  year_lt : year < 10 ^ 4
  hourText_eq : hourText = fixed 2 hour ∨ ∃ b, hourText = [b]
  nanos_eq : getNanos rest = (nanos, zoneText)
  zone_eq : getZone zoneText = some (zone, [])
  instant_eq : t = toMoment.instant - zone * 1000000000

theorem getNanos_lt {s tail : Bytes} {n : Nat} (h : getNanos s = (n, tail)) : n < 10 ^ 9 := by
  obtain ⟨-, rfl⟩ | ⟨p, ds, -, -, hdigits, -, rfl⟩ := getNanos_eq h
  · decide
  · refine nanosOf_lt (fun b hb => hdigits b (mem_of_mem_take hb)) ?_
    rw [length_take]
    omega

theorem exists_reading {s : Bytes} {t : Int} (h : parse s = some t) : Nonempty (Reading s t) := by
  unfold parse at h
  obtain ⟨⟨year, s₁⟩, hyear, h⟩ := bind_eq_some_iff.mp h
  obtain ⟨s₂, hskip₁, h⟩ := bind_eq_some_iff.mp h
  obtain ⟨⟨month, s₃⟩, hmonth, h⟩ := bind_eq_some_iff.mp h
  obtain ⟨s₄, hskip₂, h⟩ := bind_eq_some_iff.mp h
  obtain ⟨⟨day, s₅⟩, hday, h⟩ := bind_eq_some_iff.mp h
  obtain ⟨s₆, hskip₃, h⟩ := bind_eq_some_iff.mp h
  obtain ⟨⟨hour, s₇⟩, hhour, h⟩ := bind_eq_some_iff.mp h
  obtain ⟨s₈, hskip₄, h⟩ := bind_eq_some_iff.mp h
  obtain ⟨⟨minute, s₉⟩, hminute, h⟩ := bind_eq_some_iff.mp h
  obtain ⟨s₁₀, hskip₅, h⟩ := bind_eq_some_iff.mp h
  obtain ⟨⟨second, rest⟩, hsecond, h⟩ := bind_eq_some_iff.mp h
  dsimp only at hskip₁ hskip₂ hskip₃ hskip₄ hskip₅ hmonth hday hhour hminute hsecond h
  generalize hnanos : getNanos rest = x at h
  obtain ⟨nanos, zoneText⟩ := x
  obtain ⟨⟨zone, final⟩, hzone, h⟩ := bind_eq_some_iff.mp h
  dsimp only at hzone h
  split_ifs at h with hvalid
  obtain ⟨hfinal, hmonths, hdays, hhours, hminutes, hseconds⟩ := hvalid
  obtain rfl := some.inj h
  obtain rfl := List.isEmpty_iff.mp hfinal
  obtain ⟨hyears, rfl⟩ := getYear_some hyear
  obtain ⟨-, rfl⟩ := getnum_true_some hmonth
  obtain ⟨-, rfl⟩ := getnum_true_some hday
  obtain ⟨-, rfl⟩ := getnum_true_some hminute
  obtain ⟨-, rfl⟩ := getnum_true_some hsecond
  obtain rfl := skip_eq_some.mp hskip₁
  obtain rfl := skip_eq_some.mp hskip₂
  obtain rfl := skip_eq_some.mp hskip₃
  obtain rfl := skip_eq_some.mp hskip₄
  obtain rfl := skip_eq_some.mp hskip₅
  have hspelled {hourText : Bytes} (hs : s₆ = hourText ++ (0x3A :: (fixed 2 minute ++
      0x3A :: (fixed 2 second ++ rest)))) :
      fixed 4 year ++ (0x2D :: (fixed 2 month ++ (0x2D :: (fixed 2 day ++ (0x54 :: s₆))))) =
        stamp year month day hourText minute second ++ rest := by
    rw [hs, stamp]
    simp only [append_assoc, cons_append]
  obtain ⟨hourText, hhourText, hs⟩ : ∃ hourText, (hourText = fixed 2 hour ∨ ∃ b, hourText = [b]) ∧
      s₆ = hourText ++ (0x3A :: (fixed 2 minute ++ 0x3A :: (fixed 2 second ++ rest))) := by
    obtain ⟨-, hs⟩ | ⟨-, b, -, hs⟩ := getnum_some hhour
    · exact ⟨fixed 2 hour, .inl rfl, hs⟩
    · exact ⟨[b], .inr ⟨b, rfl⟩, hs⟩
  exact ⟨{ year, month, day, hour, minute, second, nanos, zone, hourText, rest, zoneText
           valid := ⟨hmonths, hdays⟩
           hour_lt := hhours
           minute_lt := hminutes
           second_lt := hseconds
           nanos_lt := getNanos_lt hnanos
           spelled := hspelled hs
           year_lt := hyears
           hourText_eq := hhourText
           nanos_eq := hnanos
           zone_eq := hzone
           instant_eq := by
             unfold Moment.instant
             dsimp only
             omega }⟩

/-- Any other zone ends in a digit. -/
theorem getZone_utc {s : Bytes} {zone : Int} (h : getZone s = some (zone, []))
    (hlast : s.getLast? = some 0x5A) : s = [0x5A] ∧ zone = 0 := by
  cases s with
  | nil => cases hlast
  | cons z rest =>
    rw [getZone] at h
    by_cases hz : z = 0x5A
    · rw [if_pos hz] at h
      obtain ⟨rfl, rfl⟩ := Prod.mk.inj (some.inj h)
      exact ⟨by rw [hz], rfl⟩
    · rw [if_neg hz] at h
      obtain ⟨⟨hour, s₁⟩, hhour, h⟩ := bind_eq_some_iff.mp h
      obtain ⟨s₂, hskip, h⟩ := bind_eq_some_iff.mp h
      obtain ⟨⟨minute, s₃⟩, hminute, h⟩ := bind_eq_some_iff.mp h
      dsimp only at hskip hminute h
      have hend : s₃ = [] := by
        split_ifs at h
        all_goals exact (Prod.mk.inj (some.inj h)).2
      obtain ⟨-, rfl⟩ := getnum_true_some hhour
      obtain ⟨-, rfl⟩ := getnum_true_some hminute
      obtain rfl := skip_eq_some.mp hskip
      have hsplit : z :: (fixed 2 hour ++ 0x3A :: (fixed 2 minute ++ s₃)) =
          (z :: fixed 2 hour ++ [0x3A]) ++ fixed 2 minute := by
        rw [hend]
        simp only [append_nil, cons_append, append_assoc, nil_append]
      rw [hsplit, List.getLast?_append_of_ne_nil _ (ne_nil_of_length_eq_add_one rfl)] at hlast
      have hdigit := isDigit_fixed 2 minute _ (List.mem_of_getLast? hlast)
      cases hdigit

/-- For a time in UTC only its fraction `mid` is left to look at. -/
theorem canonical_utc {front mid : Bytes} (hlength : front.length = 19)
    (hhour : front[13]? = some 0x3A) : Canonical (front ++ (mid ++ [0x5A])) ↔
      mid.head? ≠ some 0x2C ∧ mid.length ≤ 10 ∧ mid.getLast? ≠ some 0x30 := by
  have hat : (front ++ (mid ++ [0x5A]))[19]? = some ((mid.head?).getD 0x5A) := by
    rw [List.getElem?_append_right (by omega), hlength]
    cases mid <;> rfl
  have hsize : (front ++ (mid ++ [0x5A])).length = mid.length + 20 := by
    simp only [length_append, hlength, length_singleton]
    omega
  have hbefore (hpos : mid ≠ []) :
      (front ++ (mid ++ [0x5A]))[mid.length + 20 - 2]? = mid.getLast? := by
    have hlt := length_pos_of_ne_nil hpos
    rw [List.getElem?_append_right (by omega), List.getElem?_append_left (by omega), hlength,
      List.getLast?_eq_getElem?]
    congr 1
  constructor
  · intro h
    refine ⟨fun hcomma => h.point (by rw [hat, hcomma]; rfl), ?_, fun hzero => ?_⟩
    · have hshort := h.short
      omega
    · have hne : mid ≠ [] := by
        rintro rfl
        cases hzero
      have hlt := length_pos_of_ne_nil hne
      refine h.trimmed (by omega) ?_
      rw [hsize, hbefore hne, hzero]
  · rintro ⟨hcomma, hshort, hzero⟩
    refine ⟨?_, fun hpoint => ?_, by omega, fun hlong hlast => ?_, ?_⟩
    · rw [List.getElem?_append_left (by omega), hhour]
    · rw [hat] at hpoint
      cases mid with
      | nil => exact absurd hpoint (by decide)
      | cons p ds => exact hcomma hpoint
    · have hne : mid ≠ [] := by
        rintro rfl
        exact absurd hlong (by rw [hsize]; decide)
      rw [hsize, hbefore hne] at hlast
      exact hzero hlast
    · rw [← append_assoc, List.getLast?_concat]

namespace Reading
variable {s : Bytes} {t : Int} (r : Reading s t)

theorem zoneText_ne_nil : r.zoneText ≠ [] := by
  intro h
  have hzone := r.zone_eq
  rw [h] at hzone
  cases hzone

theorem getLast?_eq : s.getLast? = r.zoneText.getLast? := by
  have hne := r.zoneText_ne_nil
  have hrest : r.rest.getLast? = r.zoneText.getLast? := by
    obtain ⟨h, -⟩ | ⟨p, ds, h, -⟩ := getNanos_eq r.nanos_eq
    · rw [h]
    · rw [h, ← cons_append, List.getLast?_append_of_ne_nil _ hne]
  have hrest_ne : r.rest ≠ [] := by
    intro h
    rw [h] at hrest
    exact hne (List.getLast?_eq_none_iff.mp hrest.symm)
  rw [← hrest]
  conv_lhs => rw [r.spelled]
  exact List.getLast?_append_of_ne_nil _ hrest_ne

theorem instant_of_utc (h : s.getLast? = some 0x5A) :
    r.zoneText = [0x5A] ∧ t = r.toMoment.instant := by
  rw [r.getLast?_eq] at h
  obtain ⟨htext, hzone⟩ := getZone_utc r.zone_eq h
  have ht := r.instant_eq
  rw [hzone] at ht
  exact ⟨htext, by omega⟩

/-- Before a fraction in UTC, the hour is the only part of free width. -/
theorem hourText_of_canonical (h : s[13]? = some 0x3A) : r.hourText = fixed 2 r.hour := by
  obtain htext | ⟨b, htext⟩ := r.hourText_eq
  · exact htext
  · rw [r.spelled, htext] at h
    have hat : (stamp r.year r.month r.day [b] r.minute r.second ++ r.rest)[13]? =
        some (digitByte (r.minute / 10 % 10)) := rfl
    rw [hat] at h
    have hdigit := (isDigit_digitByte (Nat.mod_lt (r.minute / 10) (show 10 > 0 by decide))).1
    rw [some.inj h] at hdigit
    cases hdigit

end Reading

theorem length_stamp (m : Moment) :
    (stamp m.year m.month m.day (fixed 2 m.hour) m.minute m.second).length = 19 ∧
      (stamp m.year m.month m.day (fixed 2 m.hour) m.minute m.second)[13]? = some 0x3A :=
  ⟨rfl, rfl⟩

theorem format_eq_iff {s : Bytes} {t : Int} (h : parse s = some t) :
    format t = s ↔ Canonical s := by
  obtain ⟨r⟩ := exists_reading h
  have hformat := r.toMoment.format_instant r.year_lt
  obtain ⟨hlength, hhour⟩ := length_stamp r.toMoment
  constructor
  · intro hs
    have hlast : s.getLast? = some 0x5A := by
      rw [← hs, format]
      simp only [← append_assoc, ← cons_append, List.getLast?_concat]
    obtain ⟨-, ht⟩ := r.instant_of_utc hlast
    rw [← hs, ht, hformat, canonical_utc hlength hhour]
    by_cases hzero : r.nanos = 0
    · rw [hzero]
      decide
    · obtain ⟨ds, hds, hnanos⟩ := exists_fraction hzero r.nanos_lt
      have hshort := hds.short
      rw [← hnanos, hds.appendNano, List.getLast?_cons_of_ne_nil hds.nonempty, length_cons]
      exact ⟨nofun, by omega, hds.trimmed⟩
  · intro hc
    obtain ⟨hzoneText, ht⟩ := r.instant_of_utc hc.utc
    have hspelled := r.spelled
    rw [r.hourText_of_canonical hc.hour] at hspelled
    rw [ht, hformat]
    obtain ⟨hrest, hnanos⟩ | ⟨p, ds, hrest, hp, hdigits, hne, hnanos⟩ := getNanos_eq r.nanos_eq
    · rw [hrest, hzoneText] at hspelled
      rw [hnanos]
      exact hspelled.symm
    · rw [hrest, hzoneText, ← cons_append] at hspelled
      rw [hspelled, canonical_utc hlength hhour, length_cons,
        List.getLast?_cons_of_ne_nil hne] at hc
      obtain ⟨hpoint, hshort, htrimmed⟩ := hc
      have hds : Fraction ds := ⟨hdigits, hne, by omega, htrimmed⟩
      have hp : p = 0x2E := hp.resolve_right fun hp => hpoint (by rw [hp]; rfl)
      rw [take_of_length_le hds.short] at hnanos
      rw [hnanos, hds.appendNano, ← hp]
      exact hspelled.symm

end GolangBasics.Rfc3339
