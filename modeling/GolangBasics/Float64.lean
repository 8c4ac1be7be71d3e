import Mathlib.Algebra.Order.Ring.Int
import Mathlib.Data.Int.Log
import Mathlib.Data.Nat.Log
import Mathlib.Data.Rat.Floor
import Mathlib.Tactic.Linarith
import Mathlib.Tactic.FieldSimp
import Mathlib.Tactic.Positivity

/-! Numbers of the binary64 format: 53 significant bits, to nearest with ties to even.
Integers stay integers; other values are rationals of the normal range. -/
namespace GolangBasics.Float64

def roundNat (n : Nat) : Nat :=
  let unit := 2 ^ (Nat.log 2 n - 52)
  let q := n / unit
  let r := n % unit
  if 2 * r < unit ∨ (2 * r = unit ∧ q % 2 = 0) then q * unit else (q + 1) * unit

def ofInt (n : Int) : Int := n.sign * roundNat n.natAbs

theorem roundNat_of_lt {n : Nat} (h : n < 2 ^ 53) : roundNat n = n := by
  have hlog : Nat.log 2 n - 52 = 0 := by
    have hlt := Nat.log_lt_of_lt_pow' (by decide) h
    omega
  simp [roundNat, hlog, Nat.mod_one]

theorem ofInt_of_lt {n : Int} (hnonneg : 0 ≤ n) (h : n < 2 ^ 53) : ofInt n = n := by
  have hlt : n.natAbs < 2 ^ 53 := by omega
  rw [ofInt, roundNat_of_lt hlt, Int.sign_mul_natAbs]

theorem ofInt_nonneg {n : Int} (h : 0 ≤ n) : 0 ≤ ofInt n := by
  have hsign : 0 ≤ n.sign := Int.sign_nonneg_iff.mpr h
  exact mul_nonneg hsign (Int.natCast_nonneg _)

example : ofInt (2 ^ 53 + 3) = 2 ^ 53 + 4 := by decide +kernel

def rint (q : ℚ) : Int :=
  if q - ⌊q⌋ < 1 / 2 ∨ (q - ⌊q⌋ = 1 / 2 ∧ ⌊q⌋ % 2 = 0) then ⌊q⌋ else ⌊q⌋ + 1

def nearest (q : ℚ) : ℚ := rint (q / 2 ^ (Int.log 2 q - 52)) * 2 ^ (Int.log 2 q - 52)

theorem abs_rint_sub_le (q : ℚ) : |(rint q : ℚ) - q| ≤ 1 / 2 := by
  have hfloor := Int.floor_le q
  have hlt := Int.lt_floor_add_one q
  unfold rint
  split_ifs with hdown
  · have hhalf : q - ⌊q⌋ ≤ 1 / 2 := by
      rcases hdown with hlow | ⟨htie, -⟩
      · exact hlow.le
      · exact htie.le
    rw [abs_le]
    constructor <;> linarith
  · have hhalf : 1 / 2 ≤ q - ⌊q⌋ := not_lt.mp fun hlow => hdown (.inl hlow)
    push_cast
    rw [abs_le]
    constructor <;> linarith

/-- The relative error of one rounding. -/
theorem abs_nearest_sub_le {q : ℚ} (hq : 0 ≤ q) : |nearest q - q| ≤ q / 2 ^ 53 := by
  rcases hq.eq_or_lt with rfl | hpos
  · simp [nearest, rint]
  have hlog : (2 : ℚ) ^ Int.log 2 q ≤ q := by
    exact_mod_cast Int.zpow_log_le_self (b := 2) (by decide) hpos
  have hunit : (2 : ℚ) ^ (Int.log 2 q - 52) = 2 ^ Int.log 2 q / 2 ^ 52 := by
    rw [zpow_sub₀ (by norm_num)]
    norm_num
  set unit : ℚ := 2 ^ (Int.log 2 q - 52) with hdef
  have hunitPos : 0 < unit := zpow_pos (by norm_num) _
  have hsplit : nearest q - q = (rint (q / unit) - q / unit) * unit := by
    unfold nearest
    rw [← hdef]
    field_simp
  have herror := abs_rint_sub_le (q / unit)
  calc |nearest q - q| = |(rint (q / unit) : ℚ) - q / unit| * unit := by
        rw [hsplit, abs_mul, abs_of_pos hunitPos]
    _ ≤ 1 / 2 * unit := by
        exact mul_le_mul_of_nonneg_right herror hunitPos.le
    _ ≤ q / 2 ^ 53 := by
        rw [hunit]
        linarith

end GolangBasics.Float64
