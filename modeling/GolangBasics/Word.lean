import Mathlib.Data.Int.Basic
import Mathlib.Tactic.Ring

/-! Two's complement integers of a fixed width. Arithmetic and conversions keep the low bits of
the exact result. -/
namespace GolangBasics.Word

def wrap (w : Nat) (x : Int) : Int := x.bmod (2 ^ w)

def Fits (w : Nat) (x : Int) : Prop := -2 ^ w ≤ x ∧ x < 2 ^ w

instance (w : Nat) (x : Int) : Decidable (Fits w x) := inferInstanceAs (Decidable (_ ∧ _))

private theorem half_width (w : Nat) : ((2 ^ (w + 1) : Nat) : Int) / 2 = 2 ^ w := by
  have h : ((2 ^ (w + 1) : Nat) : Int) = 2 ^ w * 2 := by
    push_cast
    ring
  omega

private theorem half_width_succ (w : Nat) : (((2 ^ (w + 1) : Nat) : Int) + 1) / 2 = 2 ^ w := by
  have h : ((2 ^ (w + 1) : Nat) : Int) = 2 ^ w * 2 := by
    push_cast
    ring
  omega

variable {w : Nat} {x : Int}

theorem fits_wrap (w : Nat) (x : Int) : Fits w (wrap (w + 1) x) := by
  have hlow := Int.le_bmod (x := x) (Nat.two_pow_pos (w + 1))
  have hhigh := Int.bmod_lt (x := x) (Nat.two_pow_pos (w + 1))
  rw [half_width] at hlow
  rw [half_width_succ] at hhigh
  exact ⟨hlow, hhigh⟩

theorem wrap_eq (h : Fits w x) : wrap (w + 1) x = x := by
  have hlow := h.1
  have hhigh := h.2
  rw [← half_width] at hlow
  rw [← half_width_succ] at hhigh
  exact Int.bmod_eq_of_le hlow hhigh

end GolangBasics.Word
