import Mathlib.Algebra.BigOperators.Group.List.Basic
import Mathlib.Algebra.Ring.Int.Defs
import Mathlib.Data.List.Basic

/-! A history of entries, newest first, in which an entry wipes out some of the earlier ones,
and totals over the entries that are left. -/
namespace GolangBasics.Conc
open List

variable {α κ : Type}

/-- The entries that are left. `keeps new old` says that `new` leaves `old` in place. -/
def survivors (keeps : α → α → Bool) : List α → List α
  | [] => []
  | x :: xs => x :: (survivors keeps xs).filter (keeps x)

variable {keeps : α → α → Bool}

theorem survivors_sublist (xs : List α) : (survivors keeps xs).Sublist xs := by
  induction xs with
  | nil => exact List.Sublist.refl []
  | cons x xs ih => exact List.Sublist.cons_cons x (filter_sublist.trans ih)

theorem keeps_of_mem_survivors {x y : α} {xs : List α} (h : y ∈ survivors keeps (x :: xs)) :
    y = x ∨ keeps x y := by
  rcases mem_cons.mp h with rfl | h
  · exact .inl rfl
  · exact .inr (mem_filter.mp h).2

theorem filter_survivors_sublist (p : α → Bool) (xs : List α) :
    ((survivors keeps xs).filter p).Sublist (xs.filter p) :=
  (survivors_sublist xs).filter p

/-- The entries with a property are all left exactly when no later entry wiped one out. -/
theorem filter_survivors_eq_iff (p : α → Bool) (xs : List α) :
    (survivors keeps xs).filter p = xs.filter p ↔
      xs.Pairwise fun new old => p old → keeps new old := by
  induction xs with
  | nil => simp [survivors]
  | cons x xs ih =>
    rw [pairwise_cons, ← ih]
    have hcons : (survivors keeps (x :: xs)).filter p = (x :: xs).filter p ↔
        ((survivors keeps xs).filter (keeps x)).filter p = xs.filter p := by
      by_cases hx : p x <;> simp [survivors, hx]
    rw [hcons]
    have hcomm : ((survivors keeps xs).filter (keeps x)).filter p =
        ((survivors keeps xs).filter p).filter (keeps x) := filter_comm _ _ _
    constructor
    · intro h
      have hsub : (xs.filter p).Sublist ((survivors keeps xs).filter p) := by
        rw [← h, hcomm]
        exact filter_sublist
      have hall := (filter_survivors_sublist p xs).antisymm hsub
      refine ⟨fun old hold hp => ?_, hall⟩
      have hmem : old ∈ ((survivors keeps xs).filter p).filter (keeps x) := by
        rw [← hcomm, h]
        exact mem_filter.mpr ⟨hold, hp⟩
      exact (mem_filter.mp hmem).2
    · rintro ⟨hkeep, hall⟩
      rw [hcomm, hall]
      refine filter_eq_self.mpr fun old hold => ?_
      obtain ⟨hmem, hp⟩ := mem_filter.mp hold
      exact hkeep old hmem hp

/-- The totals of the entries at each of a list of places add up to the total of the entries
at one of them. -/
theorem sum_map_sum_filter [DecidableEq κ] (key : α → κ) (f : α → Int) (xs : List α)
    {places : List κ} (h : places.Nodup) :
    (places.map fun k => ((xs.filter (key · = k)).map f).sum).sum =
      ((xs.filter (key · ∈ places)).map f).sum := by
  induction xs with
  | nil => simp
  | cons x xs ih =>
    have hstep : ∀ k, (((x :: xs).filter (key · = k)).map f).sum =
        (if k = key x then f x else 0) + ((xs.filter (key · = k)).map f).sum := by
      intro k
      by_cases hk : key x = k
      · simp [hk]
      · simp [hk, Ne.symm hk]
    have hone : (places.map fun k => if k = key x then f x else 0).sum =
        if key x ∈ places then f x else 0 := by
      rw [sum_map_ite_eq places (fun _ => f x) (fun _ => 0), h.count]
      split <;> simp
    simp only [hstep, sum_map_add, ih, hone]
    by_cases hx : key x ∈ places <;> simp [hx]

end GolangBasics.Conc
