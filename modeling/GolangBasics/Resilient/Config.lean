import GolangBasics.Float64
import GolangBasics.Resilient.Client
import Mathlib.Algebra.Order.Field.Rat

/-! The policy of a target, as `libs/resilient-http-client` validates and builds it, and the
backoff between its attempts. -/
namespace GolangBasics.Resilient

structure TargetConfig where
  name : String
  timeout : Int := 0
  rateLimit : ℚ := 0
  rateBurst : Int := 0
  maxConcurrent : Int := 0
  maxConcurrentWait : Int := 0
  breakerFailureRatio : ℚ := 0
  breakerMinRequests : Int := 0
  breakerWindow : Int := 0
  breakerOpenTimeout : Int := 0
  breakerHalfOpenProbes : Int := 0
  retryMaxAttempts : Int := 0
  retryBaseDelay : Int := 0
  retryMaxDelay : Int := 0
  retryBudgetRatio : ℚ := 0
  retryBudgetMinRetries : Int := 0
  retryBudgetWindow : Int := 0

namespace TargetConfig

def bad (failed : Prop) [Decidable failed] (msg : String) : List String :=
  if failed then [msg] else []

def validateBreaker (t : TargetConfig) : List String :=
  if t.breakerFailureRatio < 0 ∨ 1 < t.breakerFailureRatio then
    ["breaker_failure_ratio must be in [0, 1]"]
  else if 0 < t.breakerFailureRatio then
    bad (t.breakerMinRequests < 1) "breaker_min_requests must be ≥ 1" ++
    bad (t.breakerWindow ≤ 0 ∨ t.breakerOpenTimeout ≤ 0)
      "breaker_window and breaker_open_timeout must be > 0" ++
    bad (t.breakerHalfOpenProbes < 1) "breaker_half_open_probes must be ≥ 1"
  else []

def validate (t : TargetConfig) : List String :=
  bad (t.timeout < 0 ∨ t.maxConcurrentWait < 0) "timeouts must not be negative" ++
  bad (t.rateLimit < 0 ∨ t.rateBurst < 0) "rate_limit and rate_burst must not be negative" ++
  bad (t.maxConcurrent < 0) "max_concurrent must not be negative" ++
  t.validateBreaker ++
  bad (t.retryMaxAttempts < 0) "retry_max_attempts must not be negative" ++
  bad (t.retryBaseDelay < 0 ∨ t.retryMaxDelay < t.retryBaseDelay)
    "retry delays must satisfy 0 ≤ retry_base_delay ≤ retry_max_delay" ++
  bad (t.retryBudgetRatio < 0 ∨ 1 < t.retryBudgetRatio) "retry_budget_ratio must be in [0, 1]" ++
  bad (t.retryBudgetMinRetries < 0 ∨ t.retryBudgetWindow < 0)
    "retry budget values must not be negative"

def newPolicy (t : TargetConfig) : Policy where
  name := t.name
  timeout := t.timeout
  maxConcurrent := t.maxConcurrent
  maxConcurrentWait := t.maxConcurrentWait
  retryMaxAttempts := t.retryMaxAttempts
  retryBaseDelay := t.retryBaseDelay
  retryMaxDelay := t.retryMaxDelay
  limiter := 0 < t.rateLimit
  breaker := 0 < t.breakerFailureRatio
  budget := 0 < t.retryBudgetWindow

theorem bad_eq_nil {failed : Prop} [Decidable failed] {msg : String} :
    bad failed msg = [] ↔ ¬failed := by
  simp [bad]

theorem delays_of_validate {t : TargetConfig} (h : t.validate = []) :
    0 ≤ t.retryBaseDelay ∧ t.retryBaseDelay ≤ t.retryMaxDelay := by
  simp only [validate, List.append_eq_nil_iff, bad_eq_nil, not_or, not_lt] at h
  exact h.1.1.2

end TargetConfig

/-- `int64(x)` of a float with an integer value: amd64 has one answer for all that is out of
range. -/
def int64 (x : Int) : Int := if -2 ^ 63 ≤ x ∧ x < 2 ^ 63 then x else -2 ^ 63

def int64N (draw : Int → Int) (n : Int) : Option Int := if n ≤ 0 then none else some (draw n % n)

/-- The top of the range `fullJitter` draws from. The product of floats is exact, since one
of them is a power of two. -/
def jitterCeiling (retry : Nat) (base capDelay : Int) : Int :=
  min (Float64.ofInt base * 2 ^ min retry 62) (Float64.ofInt capDelay)

def fullJitter (draw : Int → Int) (retry : Nat) (base capDelay : Int) : Option Int :=
  if retry = 0 then some 0
  else if jitterCeiling retry base capDelay < 1 then some 0
  else int64N draw (int64 (jitterCeiling retry base capDelay) + 1)

section
variable {draw : Int → Int} {retry : Nat} {base capDelay d : Int}

theorem jitterCeiling_mono {retry' : Nat} (hbase : 0 ≤ base) (hle : retry ≤ retry') :
    jitterCeiling retry base capDelay ≤ jitterCeiling retry' base capDelay := by
  have hpow : (2 : Int) ^ min retry 62 ≤ 2 ^ min retry' 62 :=
    pow_le_pow_right₀ (by decide) (min_le_min_right 62 hle)
  exact min_le_min_right _ (mul_le_mul_of_nonneg_left hpow (Float64.ofInt_nonneg hbase))

/-- A ceiling in the range of `int64` is the bound of the draw. -/
theorem fullJitter_spec (draw : Int → Int) (h : jitterCeiling retry base capDelay < 2 ^ 63) :
    ∃ d, fullJitter draw retry base capDelay = some d ∧ 0 ≤ d ∧
      (d ≤ jitterCeiling retry base capDelay ∨ d = 0) := by
  unfold fullJitter
  split
  · exact ⟨0, rfl, le_refl _, .inr rfl⟩
  · split
    · exact ⟨0, rfl, le_refl _, .inr rfl⟩
    · rename_i hpos
      have hrange : int64 (jitterCeiling retry base capDelay) = jitterCeiling retry base capDelay :=
        if_pos ⟨by omega, h⟩
      rw [hrange, int64N, if_neg (by omega)]
      have hmod := Int.emod_lt_of_pos (draw (jitterCeiling retry base capDelay + 1))
        (b := jitterCeiling retry base capDelay + 1) (by omega)
      exact ⟨_, rfl, Int.emod_nonneg _ (by omega), .inl (by omega)⟩

theorem fullJitter_panics (draw : Int → Int) (hretry : retry ≠ 0)
    (h : 2 ^ 63 ≤ jitterCeiling retry base capDelay) :
    fullJitter draw retry base capDelay = none := by
  have hout : int64 (jitterCeiling retry base capDelay) = -2 ^ 63 := if_neg (by omega)
  rw [fullJitter, if_neg hretry, if_neg (by omega), hout]
  rfl

theorem exists_fullJitter (hretry : retry ≠ 0) (hpos : 1 ≤ jitterCeiling retry base capDelay)
    (h : jitterCeiling retry base capDelay < 2 ^ 63) :
    ∃ draw, fullJitter draw retry base capDelay = some (jitterCeiling retry base capDelay) := by
  have hrange : int64 (jitterCeiling retry base capDelay) = jitterCeiling retry base capDelay :=
    if_pos ⟨by omega, h⟩
  refine ⟨fun n => n - 1, ?_⟩
  rw [fullJitter, if_neg hretry, if_neg (by omega), hrange, int64N, if_neg (by omega)]
  simp only [add_sub_cancel_right, Option.some.injEq]
  exact Int.emod_eq_of_lt (by omega) (by omega)

/-- Up to 2^53 nanoseconds, some hundred days, the cap is kept. -/
theorem jitterCeiling_le (hcap : 0 ≤ capDelay) (h : capDelay < 2 ^ 53) :
    jitterCeiling retry base capDelay ≤ capDelay := by
  have hexact := Float64.ofInt_of_lt hcap h
  exact (min_le_right _ _).trans hexact.le

end

end GolangBasics.Resilient
