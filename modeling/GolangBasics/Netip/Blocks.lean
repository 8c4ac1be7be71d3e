import GolangBasics.Netip
import Mathlib.Algebra.Ring.Nat

/-! Which addresses a block has: those that share its first bits. An IPv4 address has a second
form, the IPv4-mapped IPv6 address. -/
namespace GolangBasics.Netip

def mapped (bits : BitVec 32) : BitVec 128 := 0xFFFF#96 ++ bits

theorem toNat_mapped (bits : BitVec 32) : (mapped bits).toNat = 0xFFFF * 2 ^ 32 + bits.toNat := by
  unfold mapped
  rw [BitVec.toNat_append, ← Nat.shiftLeft_add_eq_or_of_lt bits.isLt]
  rfl

theorem is4In6_iff (bits : BitVec 128) :
    Addr.is4In6 bits = true ↔ bits.toNat / 2 ^ 32 = 0xFFFF := by
  unfold Addr.is4In6
  rw [decide_eq_true_iff, ← BitVec.toNat_inj, BitVec.toNat_ushiftRight, Nat.shiftRight_eq_div_pow]
  rfl

theorem is4In6_mapped (bits : BitVec 32) : Addr.is4In6 (mapped bits) = true := by
  have hlt := bits.isLt
  rw [is4In6_iff, toNat_mapped]
  omega

theorem setWidth_mapped (bits : BitVec 32) : (mapped bits).setWidth 32 = bits := by
  have hlt := bits.isLt
  rw [← BitVec.toNat_inj, BitVec.toNat_setWidth, toNat_mapped]
  omega

theorem mapped_setWidth {bits : BitVec 128} (h : Addr.is4In6 bits = true) :
    mapped (bits.setWidth 32) = bits := by
  rw [is4In6_iff] at h
  rw [← BitVec.toNat_inj, toNat_mapped, BitVec.toNat_setWidth]
  omega

def Agree {w : Nat} (n : Nat) (a b : BitVec w) : Prop := ∀ i < n, a.getMsbD i = b.getMsbD i

theorem agree_mapped {n : Nat} {a b : BitVec 32} :
    Agree (96 + n) (mapped a) (mapped b) ↔ Agree n a b := by
  constructor
  · intro h i hi
    have hbit := h (96 + i) (by omega)
    unfold mapped at hbit
    rw [BitVec.getMsbD_append, BitVec.getMsbD_append] at hbit
    simpa using hbit
  · intro h i hi
    unfold mapped
    rw [BitVec.getMsbD_append, BitVec.getMsbD_append]
    by_cases hback : 96 ≤ i
    · rw [if_pos hback, if_pos hback, h (i - 96) (by omega)]
    · rw [if_neg hback, if_neg hback]

theorem is4In6_of_agree {n : Nat} {a : BitVec 128} {b : BitVec 32}
    (h : Agree (96 + n) a (mapped b)) : Addr.is4In6 a = true := by
  have hmark := of_decide_eq_true (is4In6_mapped b)
  unfold Addr.is4In6
  rw [decide_eq_true_iff, ← hmark]
  refine BitVec.eq_of_getMsbD_eq fun i hi => ?_
  rw [BitVec.getMsbD_ushiftRight, BitVec.getMsbD_ushiftRight, h (i - 32) (by omega)]

section masks
variable {w n : Nat} (hn : n ≤ w) (x : BitVec w)
include hn

theorem shiftRight_eq_zero_iff : x >>> (w - n) = 0#w ↔ ∀ i < n, x.getMsbD i = false := by
  constructor
  · intro h i hi
    have hbit := congrArg (BitVec.getMsbD · (i + (w - n))) h
    simpa [BitVec.getMsbD_ushiftRight, show i + (w - n) < w by omega] using hbit
  · intro h
    refine BitVec.eq_of_getMsbD_eq fun i hi => ?_
    rw [BitVec.getMsbD_ushiftRight, BitVec.getMsbD_zero]
    by_cases hlow : i < w - n
    · simp [hlow]
    · simp [hlow, h (i - (w - n)) (by omega)]

theorem getMsbD_mask (i : Nat) : (mask w n).getMsbD i = decide (i < n) := by
  unfold mask
  rw [BitVec.getMsbD_shiftLeft, BitVec.getMsbD_allOnes]
  exact decide_eq_decide.mpr (by omega)

theorem and_mask_eq_zero_iff : x &&& mask w n = 0#w ↔ ∀ i < n, x.getMsbD i = false := by
  constructor
  · intro h i hi
    have hbit := congrArg (BitVec.getMsbD · i) h
    simpa [getMsbD_mask hn, hi] using hbit
  · intro h
    refine BitVec.eq_of_getMsbD_eq fun i hi => ?_
    rw [BitVec.getMsbD_and, getMsbD_mask hn, BitVec.getMsbD_zero]
    by_cases hi : i < n
    · rw [h i hi, Bool.false_and]
    · simp [hi]

theorem agree_mask {a b : BitVec w} : Agree n a (b &&& mask w n) ↔ Agree n a b := by
  refine forall_congr' fun i => imp_congr_right fun hi => ?_
  rw [BitVec.getMsbD_and, getMsbD_mask hn, decide_eq_true hi, Bool.and_true]

end masks

theorem getMsbD_xor_eq_false {w i : Nat} {a b : BitVec w} :
    (a ^^^ b).getMsbD i = false ↔ a.getMsbD i = b.getMsbD i := by
  rw [BitVec.getMsbD_xor]
  cases a.getMsbD i <;> cases b.getMsbD i <;> decide

theorem contains_v4 {n : Nat} (hn : n ≤ 32) {own bits : BitVec 32} :
    Prefix.contains ⟨.v4 own, n⟩ (.v4 bits) = true ↔ Agree n bits own := by
  unfold Prefix.contains
  dsimp only
  rw [decide_eq_true_iff, shiftRight_eq_zero_iff hn]
  simp only [getMsbD_xor_eq_false, Agree]

theorem contains_v6 {n : Nat} (hn : n ≤ 128) {own bits : BitVec 128} {zone : Bytes} :
    Prefix.contains ⟨.v6 own zone, n⟩ (.v6 bits []) = true ↔ Agree n bits own := by
  unfold Prefix.contains
  dsimp only
  rw [decide_eq_true rfl, Bool.true_and, decide_eq_true_iff, and_mask_eq_zero_iff hn]
  simp only [getMsbD_xor_eq_false, Agree]

theorem contains_zone {p : Prefix} {a : Addr} (h : a.zone ≠ []) : p.contains a = false := by
  cases a with
  | invalid => exact absurd rfl h
  | v4 bits => exact absurd rfl h
  | v6 bits zone =>
    unfold Prefix.contains
    cases p.ip with
    | invalid => rfl
    | v4 own => rfl
    | v6 own z =>
      have hzone : zone ≠ [] := h
      dsimp only
      rw [decide_eq_false hzone, Bool.false_and]

end GolangBasics.Netip
