import Mathlib.Algebra.Ring.Int.Defs
import Mathlib.Algebra.Ring.Nat

/-! What `strconv` makes of decimal integers. -/
namespace GolangBasics
open List

inductive NumError where
  | malformed | outOfRange
  deriving DecidableEq, Repr

def NumError.text : NumError → String
  | malformed => "invalid syntax"
  | outOfRange => "value out of range"

def digits (cs : List Char) : Option Nat :=
  if cs ≠ [] ∧ cs.all Char.isDigit then
    some (cs.foldl (fun n c => 10 * n + (c.toNat - '0'.toNat)) 0)
  else none

def parseInt (s : String) : Except NumError Int :=
  match s.toList with
  | '-' :: cs =>
    match digits cs with
    | none => .error .malformed
    | some n => if n ≤ 2 ^ 63 then .ok (-n) else .error .outOfRange
  | '+' :: cs => unsigned cs
  | cs => unsigned cs
where
  unsigned (cs : List Char) : Except NumError Int :=
    match digits cs with
    | none => .error .malformed
    | some n => if n < 2 ^ 63 then .ok n else .error .outOfRange

theorem digits_toDigits (n : Nat) : digits (Nat.toDigits 10 n) = some n := by
  have hdigits : (Nat.toDigits 10 n).all Char.isDigit = true :=
    all_eq_true.mpr fun c hc => Nat.isDigit_of_mem_toDigits (by decide) (by decide) hc
  unfold digits
  rw [if_pos ⟨Nat.toDigits_ne_nil, hdigits⟩]
  exact congrArg some (Nat.ofDigitChars_toDigits (by decide) (by decide))

variable {cs : List Char}

theorem digits_eq_some {n : Nat} : digits cs = some n ↔
      cs ≠ [] ∧ (∀ c ∈ cs, c.isDigit = true) ∧ Nat.ofDigitChars 10 cs 0 = n := by
  unfold digits
  constructor
  · intro h
    split at h
    · rename_i hcs
      exact ⟨hcs.1, all_eq_true.mp hcs.2, Option.some.inj h⟩
    · cases h
  · intro h
    rw [if_pos ⟨h.1, all_eq_true.mpr h.2.1⟩]
    exact congrArg some h.2.2

theorem digitChar_toNat_sub {c : Char} (h : c.isDigit = true) :
    Nat.digitChar (c.toNat - '0'.toNat) = c ∧ c.toNat - '0'.toNat < 10 := by
  have hdigit : ∀ d < 10, Nat.digitChar d = Char.ofNat ('0'.toNat + d) := by decide
  obtain ⟨hlow, hhigh⟩ := Char.isDigit_iff_toNat.mp h
  have hnine : '9'.toNat = '0'.toNat + 9 := rfl
  have hlt : c.toNat - '0'.toNat < 10 := by omega
  rw [hdigit _ hlt, Nat.add_sub_cancel' hlow, Char.ofNat_toNat]
  exact ⟨rfl, hlt⟩

/-- Digits behind a number that is not zero are the last digits of a number. -/
theorem toDigits_ofDigitChars (hcs : ∀ c ∈ cs, c.isDigit = true) {n : Nat} (hn : 0 < n) :
    Nat.toDigits 10 (Nat.ofDigitChars 10 cs n) = Nat.toDigits 10 n ++ cs := by
  induction cs generalizing n with
  | nil => exact (append_nil _).symm
  | cons c cs ih =>
    obtain ⟨hchar, hlt⟩ := digitChar_toNat_sub (hcs c mem_cons_self)
    have hlast := Nat.toDigits_append_toDigits (b := 10) (by decide) hn hlt
    rw [Nat.toDigits_of_lt_base hlt, hchar] at hlast
    rw [Nat.ofDigitChars_cons, ih (fun d hd => hcs d (mem_cons_of_mem c hd)) (by omega),
      ← hlast, append_assoc]
    rfl

theorem toDigits_of_digits {c : Char} {n : Nat} (hc : c ≠ '0') (h : digits (c :: cs) = some n) :
    Nat.toDigits 10 n = c :: cs := by
  obtain ⟨-, hdigits, rfl⟩ := digits_eq_some.mp h
  obtain ⟨hchar, hlt⟩ := digitChar_toNat_sub (hdigits c mem_cons_self)
  have hpos : 0 < c.toNat - '0'.toNat := by
    refine Nat.pos_of_ne_zero fun hzero => hc ?_
    rw [← hchar, hzero]
    rfl
  rw [Nat.ofDigitChars_cons, Nat.mul_zero, Nat.zero_add,
    toDigits_ofDigitChars (fun d hd => hdigits d (mem_cons_of_mem c hd)) hpos,
    Nat.toDigits_of_lt_base hlt, hchar]
  rfl

theorem digits_zero_cons (hcs : cs ≠ []) : digits ('0' :: cs) = digits cs := by
  have hzero : ('0' :: cs).all Char.isDigit = cs.all Char.isDigit := rfl
  unfold digits
  rw [hzero]
  by_cases h : cs.all Char.isDigit
  · rw [if_pos ⟨cons_ne_nil _ _, h⟩, if_pos ⟨hcs, h⟩]
    rfl
  · rw [if_neg fun h' => h h'.2, if_neg fun h' => h h'.2]

theorem length_toDigits_le {n : Nat} (h : digits cs = some n) :
    (Nat.toDigits 10 n).length ≤ cs.length := by
  induction cs with
  | nil => cases h
  | cons c cs ih =>
    by_cases hc : c = '0'
    · by_cases hcs : cs = []
      · subst hc hcs
        cases h
        exact Nat.le_refl 1
      · rw [hc, digits_zero_cons hcs] at h
        exact Nat.le_succ_of_le (ih h)
    · exact Nat.le_of_eq (congrArg List.length (toDigits_of_digits hc h))

theorem digits_pos_iff {n : Nat} (h : digits cs = some n) : 0 < n ↔ ∃ c ∈ cs, c ≠ '0' := by
  induction cs with
  | nil => cases h
  | cons c cs ih =>
    by_cases hc : c = '0'
    · have htail : (∃ d ∈ c :: cs, d ≠ '0') ↔ ∃ d ∈ cs, d ≠ '0' := by
        simp only [mem_cons, or_and_right, exists_or, exists_eq_left, hc, ne_eq,
          not_true_eq_false, false_or]
      rw [htail]
      by_cases hcs : cs = []
      · subst hc hcs
        have hn : n = 0 := (Option.some.inj h).symm
        exact iff_of_false (by omega) fun ⟨d, hd, _⟩ => not_mem_nil hd
      · rw [hc, digits_zero_cons hcs] at h
        exact ih h
    · refine iff_of_true (Nat.pos_of_ne_zero fun hzero => hc ?_) ⟨c, mem_cons_self, hc⟩
      have hn := toDigits_of_digits hc h
      rw [hzero] at hn
      exact (List.cons.inj hn).1.symm

theorem parseInt_unsigned {s : String} {c : Char} (hs : s.toList = c :: cs) (hc : c.isDigit = true) :
    parseInt s = parseInt.unsigned (c :: cs) := by
  unfold parseInt
  rw [hs]
  split
  · rename_i heq
    obtain ⟨rfl, -⟩ := List.cons.inj heq
    simp at hc
  · rename_i heq
    obtain ⟨rfl, -⟩ := List.cons.inj heq
    simp at hc
  · rfl

/-- A positive result comes from digits, perhaps with a plus sign before them. -/
theorem parseInt_pos {s : String} {v : Int} (h : parseInt s = .ok v) (hv : 1 ≤ v) :
    ∃ n : Nat, v = n ∧
      ((∃ cs, s.toList = '+' :: cs ∧ digits cs = some n) ∨ digits s.toList = some n) := by
  have hunsigned : ∀ cs, parseInt.unsigned cs = .ok v → ∃ n : Nat, v = n ∧ digits cs = some n := by
    intro cs hcs
    unfold parseInt.unsigned at hcs
    split at hcs
    · cases hcs
    · rename_i n hn
      split at hcs
      · cases hcs
        exact ⟨n, rfl, hn⟩
      · cases hcs
  unfold parseInt at h
  split at h
  · split at h
    · cases h
    · split at h
      · cases h
        omega
      · cases h
  · rename_i cs hlist
    obtain ⟨n, hn, hdigits⟩ := hunsigned cs h
    exact ⟨n, hn, .inl ⟨cs, hlist, hdigits⟩⟩
  · obtain ⟨n, hn, hdigits⟩ := hunsigned _ h
    exact ⟨n, hn, .inr hdigits⟩

/-- What `strconv.Itoa` and `strconv.FormatInt` print is read back. -/
theorem parseInt_toString {n : Int} (hlow : -2 ^ 63 ≤ n) (hhigh : n < 2 ^ 63) :
    parseInt (toString n) = .ok n := by
  rw [Int.toString_eq_repr, Int.repr_eq_if]
  by_cases hn : 0 ≤ n
  · rw [if_pos hn]
    obtain ⟨m, rfl⟩ := Int.eq_ofNat_of_zero_le hn
    obtain ⟨c, cs, hcs⟩ := exists_cons_of_ne_nil (Nat.toDigits_ne_nil (n := m) (b := 10))
    have hc : c.isDigit = true :=
      Nat.isDigit_of_mem_toDigits (by decide) (by decide) (hcs ▸ mem_cons_self)
    rw [Int.toNat_natCast, parseInt_unsigned (Nat.toList_repr.trans hcs) hc]
    unfold parseInt.unsigned
    rw [← hcs, digits_toDigits]
    have hm : m < 2 ^ 63 := by omega
    exact if_pos hm
  · rw [if_neg hn]
    have hneg : 0 ≤ -n := by omega
    obtain ⟨m, hm⟩ := Int.eq_ofNat_of_zero_le hneg
    have hlist : ("-" ++ (-n).toNat.repr).toList = '-' :: Nat.toDigits 10 m := by
      rw [hm, Int.toNat_natCast, String.toList_append, Nat.toList_repr]
      rfl
    unfold parseInt
    rw [hlist]
    simp only [digits_toDigits]
    have hle : m ≤ 2 ^ 63 := by omega
    rw [if_pos hle]
    congr 1
    omega

end GolangBasics
