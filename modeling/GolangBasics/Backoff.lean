import GolangBasics.Word
import Mathlib.Tactic.Linarith

/-! The delays between attempts of the Kafka consumer and of the outbox relay: a delay doubled
up to a cap, half of it fixed and half of it drawn. -/
namespace GolangBasics

namespace Backoff

/-- `rounds` turns of the loop `d < maxDelay` with body `d *= 2`. -/
def doubled (maxDelay : Int) : Nat → Int → Int
  | 0, d => d
  | rounds + 1, d =>
    if d < maxDelay then doubled maxDelay rounds (Word.wrap 64 (d * 2)) else d

/-- `rand.N`, which panics unless `n` is positive. -/
def randN (draw : Int → Int) (n : Int) : Option Int := if n ≤ 0 then none else some (draw n % n)

/-- Equal jitter: half of the delay, and a draw from none to the same again. -/
def equalJitter (draw : Int → Int) (d : Int) : Option Int :=
  let half := d.tdiv 2
  if half ≤ 0 then some d
  else (randN draw (Word.wrap 64 (half + 1))).map fun r => Word.wrap 64 (half + r)

end Backoff

/-- `backoff` of `libs/kafka`, where `n` counts from zero. -/
def Kafka.backoff (draw : Int → Int) (n : Int) (initial maxDelay : Int) : Option Int :=
  Backoff.equalJitter draw (min (Backoff.doubled maxDelay n.toNat initial) maxDelay)

/-- `backoff` of the outbox, where `n` counts from one. -/
def Tasks.Outbox.backoff (draw : Int → Int) (n : Int) (interval maxDelay : Int) : Option Int :=
  Backoff.equalJitter draw (min (Backoff.doubled maxDelay (n - 1).toNat interval) maxDelay)

namespace Backoff

variable {maxDelay d : Int}

theorem doubled_of_le (h : maxDelay ≤ d) (rounds : Nat) : doubled maxDelay rounds d = d := by
  cases rounds with
  | zero => rfl
  | succ rounds => rw [doubled, if_neg (by omega)]

theorem fits_twice (hpos : 0 < d) (hlt : d < maxDelay) (hmax : maxDelay < 2 ^ 62) :
    Word.Fits 63 (d * 2) := by
  constructor <;> omega

theorem le_mul_two_pow {k : Nat} (hpos : 0 < d) : d ≤ d * 2 ^ k := by
  have hone : (1 : Int) ≤ 2 ^ k := one_le_pow₀ (by decide)
  nlinarith

/-- The loop is the closed form up to the cap, and stays positive. -/
theorem min_doubled (hmax : maxDelay < 2 ^ 62) (rounds : Nat) (hpos : 0 < d) :
    min (doubled maxDelay rounds d) maxDelay = min (d * 2 ^ rounds) maxDelay ∧
      0 < doubled maxDelay rounds d := by
  induction rounds generalizing d with
  | zero => exact ⟨by rw [doubled, pow_zero, mul_one], hpos⟩
  | succ rounds ih =>
    by_cases hlt : d < maxDelay
    · rw [doubled, if_pos hlt, Word.wrap_eq (fits_twice hpos hlt hmax)]
      have hstep : d * 2 ^ (rounds + 1) = d * 2 * 2 ^ rounds := by ring
      rw [hstep]
      exact ih (by omega)
    · have hle := le_mul_two_pow (k := rounds + 1) hpos
      rw [doubled_of_le (by omega)]
      exact ⟨by omega, hpos⟩

theorem equalJitter_spec (draw : Int → Int) (hpos : 0 < d) (hd : d < 2 ^ 62) :
    ∃ x, equalJitter draw d = some x ∧ d / 2 ≤ x ∧ x ≤ d ∧ 0 < x := by
  have hhalf : d.tdiv 2 = d / 2 := Int.tdiv_eq_ediv_of_nonneg (by omega)
  dsimp only [equalJitter]
  rw [hhalf]
  by_cases hone : d / 2 ≤ 0
  · rw [if_pos hone]
    exact ⟨d, rfl, by omega, by omega, hpos⟩
  · have hn : Word.wrap 64 (d / 2 + 1) = d / 2 + 1 := Word.wrap_eq ⟨by omega, by omega⟩
    rw [if_neg hone, hn, randN, if_neg (by omega), Option.map_some]
    generalize hr : draw (d / 2 + 1) % (d / 2 + 1) = r
    have hlow : 0 ≤ r := by
      rw [← hr]
      exact Int.emod_nonneg _ (by omega)
    have hhigh : r < d / 2 + 1 := by
      rw [← hr]
      exact Int.emod_lt_of_pos _ (by omega)
    rw [Word.wrap_eq ⟨by omega, by omega⟩]
    exact ⟨_, rfl, by omega, by omega, by omega⟩

/-- Both delays are drawn between half of the doubled delay and all of it, no doubling leaves
the range of `int64`, and no draw panics. -/
theorem backoff_bounds (draw : Int → Int) (n : Nat) (initial maxDelay : Int) (hpos : 0 < initial)
    (hle : initial ≤ maxDelay) (hmax : maxDelay < 2 ^ 62) :
    (∃ x, Kafka.backoff draw n initial maxDelay = some x ∧
      Tasks.Outbox.backoff draw (n + 1) initial maxDelay = some x ∧
      min (initial * 2 ^ n) maxDelay / 2 ≤ x ∧ x ≤ min (initial * 2 ^ n) maxDelay ∧ 0 < x) ∧
    ∀ k, doubled maxDelay k initial < maxDelay →
      Word.Fits 63 (doubled maxDelay k initial * 2) := by
  have hmin := (min_doubled hmax n hpos).1
  have hgrow := le_mul_two_pow (k := n) hpos
  have hsame : Tasks.Outbox.backoff draw (n + 1) initial maxDelay =
      Kafka.backoff draw n initial maxDelay := by
    rw [Tasks.Outbox.backoff, Kafka.backoff, Int.add_sub_cancel]
  constructor
  · rw [hsame, Kafka.backoff, Int.toNat_natCast, hmin]
    obtain ⟨x, hx, hlow, hhigh, hx0⟩ := equalJitter_spec draw
      (d := min (initial * 2 ^ n) maxDelay) (by omega) (by omega)
    exact ⟨x, hx, hx, hlow, hhigh, hx0⟩
  · intro k hk
    exact fits_twice (min_doubled hmax k hpos).2 hk hmax

/-- One doubled three times and capped at five: the draw is from two to five. -/
theorem backoff_bounds_three :
    (∃ x, Kafka.backoff (fun _ => 5) (3 : Nat) 1 5 = some x ∧
      Tasks.Outbox.backoff (fun _ => 5) ((3 : Nat) + 1) 1 5 = some x ∧
      min (1 * 2 ^ 3) 5 / 2 ≤ x ∧ x ≤ min ((1 : Int) * 2 ^ 3) 5 ∧ 0 < x) ∧
    ∀ k, doubled 5 k 1 < 5 → Word.Fits 63 (doubled 5 k 1 * 2) :=
  backoff_bounds (fun _ => 5) 3 1 5 (by decide) (by decide) (by decide)

end Backoff

end GolangBasics
