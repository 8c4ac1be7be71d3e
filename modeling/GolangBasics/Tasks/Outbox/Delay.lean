import GolangBasics.Tasks.Outbox.Table
import Mathlib.Algebra.Order.Group.MinMax
import Mathlib.Tactic.NormNum

/-! The delay that the statement of a rejection computes in floating point. -/
namespace GolangBasics.Tasks.Outbox

def backoffDelay (backoff rejections : Nat) : Nat := min (backoff * 2 ^ rejections) maxRejectDelay

theorem abs_seconds_sub_le (d : Nat) :
    |seconds d - (d : ℚ) / 10 ^ 9| ≤ (d : ℚ) / 10 ^ 9 / 2 ^ 51 := by
  have hsplit : (d : ℚ) / 10 ^ 9 = (d / 10 ^ 9 : Nat) + ((d % 10 ^ 9 : Nat) : ℚ) / 10 ^ 9 := by
    have hdiv : ((10 ^ 9 * (d / 10 ^ 9) + d % 10 ^ 9 : Nat) : ℚ) = d := by rw [Nat.div_add_mod]
    rw [← hdiv]
    push_cast
    ring
  have hwhole : (0 : ℚ) ≤ (d / 10 ^ 9 : Nat) := Nat.cast_nonneg _
  have hfrac : (0 : ℚ) ≤ ((d % 10 ^ 9 : Nat) : ℚ) / 10 ^ 9 := by positivity
  unfold seconds
  rw [hsplit]
  generalize ((d / 10 ^ 9 : Nat) : ℚ) = whole at hwhole ⊢
  generalize ((d % 10 ^ 9 : Nat) : ℚ) / 10 ^ 9 = frac at hfrac ⊢
  have hfracError := abs_le.mp (Float64.abs_nearest_sub_le hfrac)
  have hsum : 0 ≤ whole + Float64.nearest frac := by linarith [hfracError.1]
  have hsumError := abs_le.mp (Float64.abs_nearest_sub_le hsum)
  rw [abs_le]
  constructor <;> linarith [hfracError.1, hfracError.2, hsumError.1, hsumError.2]

/-- The factors of the float product are off by so little that the microseconds come out
right. -/
theorem abs_micros_sub_lt (backoff rejections : Nat) :
    |Float64.nearest (10 ^ 6 * min (seconds backoff * 2 ^ rejections) (seconds maxRejectDelay)) -
      (backoffDelay backoff rejections : ℚ) / 1000| < 1 / 1000 := by
  have hcap := abs_le.mp (abs_seconds_sub_le maxRejectDelay)
  have hvalue : (maxRejectDelay : ℚ) / 10 ^ 9 = 3600 := by norm_num [maxRejectDelay]
  rw [hvalue] at hcap
  have hpow : (0 : ℚ) < 2 ^ rejections := by positivity
  have hproduct : |seconds backoff * 2 ^ rejections - (backoff : ℚ) / 10 ^ 9 * 2 ^ rejections| ≤
      (backoff : ℚ) / 10 ^ 9 * 2 ^ rejections / 2 ^ 51 := by
    rw [← sub_mul, abs_mul, abs_of_pos hpow]
    calc |seconds backoff - (backoff : ℚ) / 10 ^ 9| * 2 ^ rejections
        ≤ (backoff : ℚ) / 10 ^ 9 / 2 ^ 51 * 2 ^ rejections :=
          mul_le_mul_of_nonneg_right (abs_seconds_sub_le backoff) hpow.le
      _ = (backoff : ℚ) / 10 ^ 9 * 2 ^ rejections / 2 ^ 51 := by ring
  have hexact : (backoffDelay backoff rejections : ℚ) / 1000 =
      10 ^ 6 * min ((backoff : ℚ) / 10 ^ 9 * 2 ^ rejections) 3600 := by
    unfold backoffDelay
    rw [← hvalue, mul_min_of_nonneg _ _ (by norm_num), Nat.cast_min,
      ← min_div_div_right (by norm_num)]
    push_cast
    congr 1 <;> ring
  have hnonneg : 0 ≤ (backoff : ℚ) / 10 ^ 9 * 2 ^ rejections := by positivity
  rw [hexact]
  generalize (backoff : ℚ) / 10 ^ 9 * 2 ^ rejections = x at hproduct hnonneg ⊢
  generalize seconds backoff * 2 ^ rejections = a at hproduct ⊢
  generalize seconds maxRejectDelay = b at hcap ⊢
  rw [abs_le] at hproduct
  have hlow : 0 ≤ min a b := le_min (by linarith) (by linarith)
  have hmin : |min a b - min x 3600| ≤ 3600 / 2 ^ 50 := by
    rcases le_or_gt x 7200 with hx | hx
    · refine (abs_min_sub_min_le_max a b x 3600).trans (max_le ?_ ?_)
      · rw [abs_le]
        constructor <;> linarith
      · rw [abs_le]
        constructor <;> linarith
    · rw [min_eq_right (by linarith : b ≤ a), min_eq_right (by linarith : (3600 : ℚ) ≤ x), abs_le]
      constructor <;> linarith
  rw [abs_le] at hmin
  have hsmall : min x 3600 ≤ 3600 := min_le_right _ _
  have hlast := abs_le.mp (Float64.abs_nearest_sub_le (q := 10 ^ 6 * min a b) (by positivity))
  rw [abs_lt]
  constructor <;> linarith [hlast.1, hlast.2, hmin.1, hmin.2]

theorem rejectDelay_eq_some {backoff rejections d : Nat}
    (h : rejectDelay backoff rejections = some d) :
    d = 1000 * (Float64.rint (Float64.nearest
      (10 ^ 6 * min (seconds backoff * 2 ^ rejections) (seconds maxRejectDelay)))).toNat := by
  simp only [rejectDelay] at h
  split_ifs at h
  exact (Option.some.inj h).symm

theorem rejectDelay_isSome_iff (backoff rejections : Nat) :
    (rejectDelay backoff rejections).isSome ↔
      rejections < 1024 ∧ seconds backoff * 2 ^ rejections < (2 ^ 1024 : Nat) := by
  simp only [rejectDelay]
  split_ifs with hover
  · simp only [Option.isSome_none, Bool.false_eq_true, false_iff, not_and_or, not_lt]
    exact hover
  · simp only [Option.isSome_some, true_iff, ← not_le, ← not_or]
    exact hover

theorem rejectDelay_bounds {backoff rejections d : Nat}
    (hd : rejectDelay backoff rejections = some d) : 1000 ∣ d ∧
      d ≤ backoffDelay backoff rejections + 500 ∧ backoffDelay backoff rejections ≤ d + 500 := by
  have hmicros := abs_lt.mp (abs_micros_sub_lt backoff rejections)
  rw [rejectDelay_eq_some hd]
  generalize Float64.nearest _ = x at hmicros ⊢
  have hround := abs_le.mp (Float64.abs_rint_sub_le x)
  generalize Float64.rint x = n at hround ⊢
  generalize backoffDelay backoff rejections = d at hmicros ⊢
  have hlow : (d : ℚ) - 501 < 1000 * n := by linarith
  have hhigh : 1000 * (n : ℚ) < d + 501 := by linarith
  have hlow : (d : Int) - 501 < 1000 * n := by exact_mod_cast hlow
  have hhigh : 1000 * n < (d : Int) + 501 := by exact_mod_cast hhigh
  omega

/-- The delay is the exact one up to half a microsecond, for every count up to the one where the
statement fails. -/
theorem rejectDelay_near (backoff rejections : Nat) :
    if rejections < 1024 ∧ seconds backoff * 2 ^ rejections < (2 ^ 1024 : Nat) then
      ∃ d, rejectDelay backoff rejections = some d ∧
        d ≤ backoffDelay backoff rejections + 500 ∧ backoffDelay backoff rejections ≤ d + 500
    else rejectDelay backoff rejections = none := by
  split_ifs with hrange
  · obtain ⟨d, hd⟩ := Option.isSome_iff_exists.mp ((rejectDelay_isSome_iff _ _).mpr hrange)
    exact ⟨d, hd, (rejectDelay_bounds hd).2⟩
  · rwa [← rejectDelay_isSome_iff, Option.not_isSome_iff_eq_none] at hrange

/-- A statement that fails for a count fails for every greater one. -/
theorem rejectDelay_isSome_of_le {backoff j k : Nat} (hle : j ≤ k)
    (h : (rejectDelay backoff k).isSome) : (rejectDelay backoff j).isSome := by
  rw [rejectDelay_isSome_iff] at h ⊢
  refine ⟨hle.trans_lt h.1, lt_of_le_of_lt ?_ h.2⟩
  have hseconds : 0 ≤ seconds backoff := by
    have hpos : (0 : ℚ) ≤ (backoff : ℚ) / 10 ^ 9 := by positivity
    linarith [(abs_le.mp (abs_seconds_sub_le backoff)).1]
  exact mul_le_mul_of_nonneg_left (pow_le_pow_right₀ (by norm_num) hle) hseconds

/-- A number of nanoseconds in whole microseconds, up to the next one from the half on. -/
def wholeMicros (d : Nat) : Nat := (d + 500) / 1000 * 1000

/-- The floating point only shows when the exact delay is half-way between two microseconds. -/
theorem rejectDelay_eq {backoff rejections d : Nat} (hd : rejectDelay backoff rejections = some d)
    (h : backoffDelay backoff rejections % 1000 ≠ 500) :
    d = wholeMicros (backoffDelay backoff rejections) := by
  obtain ⟨⟨m, rfl⟩, hhigh, hlow⟩ := rejectDelay_bounds hd
  unfold wholeMicros
  omega

theorem dvd_backoffDelay {backoff : Nat} (h : 1000 ∣ backoff) (rejections : Nat) :
    1000 ∣ backoffDelay backoff rejections := by
  unfold backoffDelay
  rcases min_choice (backoff * 2 ^ rejections) maxRejectDelay with hmin | hmin
  · rw [hmin]
    exact h.mul_right _
  · rw [hmin]
    decide

end GolangBasics.Tasks.Outbox
