import Mathlib.Data.List.Dedup

/-! Maps that are filled by assignments in turn: the last assignment to a key stands. -/
namespace GolangBasics.Assign
open List Option
variable {κ β : Type} [DecidableEq κ]

def toMap : List (κ × β) → List (κ × β)
  | [] => []
  | (k, b) :: rest => if k ∈ rest.map Prod.fst then toMap rest else (k, b) :: toMap rest

def finalAt (k : κ) : List (κ × β) → Option β
  | [] => none
  | (j, b) :: rest => (finalAt k rest).or (if j = k then some b else none)

theorem toMap_cons (k : κ) (b : β) (rest : List (κ × β)) :
    toMap ((k, b) :: rest) =
      if k ∈ rest.map Prod.fst then toMap rest else (k, b) :: toMap rest := rfl

theorem finalAt_nil (k : κ) : finalAt k ([] : List (κ × β)) = none := rfl

theorem finalAt_cons (k : κ) (p : κ × β) (rest : List (κ × β)) :
    finalAt k (p :: rest) = (finalAt k rest).or (if p.1 = k then some p.2 else none) := rfl

theorem finalAt_append (k : κ) (l l' : List (κ × β)) :
    finalAt k (l ++ l') = (finalAt k l').or (finalAt k l) := by
  induction l with
  | nil => simp [finalAt_nil]
  | cons p l ih => simp only [cons_append, finalAt_cons, ih, Option.or_assoc]

theorem finalAt_eq_none_iff {k : κ} {l : List (κ × β)} :
    finalAt k l = none ↔ k ∉ l.map Prod.fst := by
  induction l with
  | nil => simp [finalAt_nil]
  | cons p l ih =>
    simp only [finalAt_cons, or_eq_none_iff, ih, map_cons, mem_cons, not_or]
    constructor
    · intro h
      refine ⟨?_, h.1⟩
      rintro rfl
      simp at h
    · intro h
      exact ⟨h.2, if_neg fun heq => h.1 heq.symm⟩

theorem finalAt_toMap (k : κ) (l : List (κ × β)) : finalAt k (toMap l) = finalAt k l := by
  induction l with
  | nil => rfl
  | cons p l ih =>
    obtain ⟨j, b⟩ := p
    rw [toMap_cons]
    split_ifs with hmem
    · rw [ih]
      by_cases hjk : j = k
      · subst hjk
        -- the assignment is overwritten by a later one
        have hsome := mt finalAt_eq_none_iff.mp (not_not_intro hmem)
        obtain ⟨c, hc⟩ := Option.ne_none_iff_exists'.mp hsome
        simp [finalAt_cons, hc]
      · simp [finalAt_cons, hjk]
    · simp only [finalAt_cons, ih]

theorem keys_toMap (l : List (κ × β)) :
    (toMap l).map Prod.fst = (l.map Prod.fst).dedup := by
  induction l with
  | nil => rfl
  | cons p l ih =>
    obtain ⟨j, b⟩ := p
    rw [toMap_cons]
    split_ifs with hmem
    · rw [map_cons, dedup_cons_of_mem hmem, ih]
    · rw [map_cons, map_cons, dedup_cons_of_notMem hmem, ih]

theorem finalAt_append_of_mem {k : κ} {l' : List (κ × β)} (l : List (κ × β))
    (hmem : k ∈ l'.map Prod.fst) : finalAt k (l ++ l') = finalAt k l' := by
  obtain ⟨c, hc⟩ := Option.ne_none_iff_exists'.mp (mt finalAt_eq_none_iff.mp (not_not_intro hmem))
  rw [finalAt_append, hc, some_or]

theorem finalAt_append_of_not_mem {k : κ} {l' : List (κ × β)} (l : List (κ × β))
    (hmem : k ∉ l'.map Prod.fst) : finalAt k (l ++ l') = finalAt k l := by
  rw [finalAt_append, finalAt_eq_none_iff.mpr hmem, none_or]

/-- Two rounds of assignments to the same keys in the same order give the same map exactly
when they agree on what stands at each key. -/
theorem toMap_eq_iff {l l' : List (κ × β)} (hkeys : l.map Prod.fst = l'.map Prod.fst) :
    toMap l = toMap l' ↔ ∀ k, finalAt k l = finalAt k l' := by
  constructor
  · intro h k
    rw [← finalAt_toMap k l, ← finalAt_toMap k l', h]
  · intro h
    induction l generalizing l' with
    | nil =>
      cases l' with
      | nil => rfl
      | cons p l' => simp at hkeys
    | cons p l ih =>
      cases l' with
      | nil => simp at hkeys
      | cons q l' =>
        obtain ⟨j, b⟩ := p
        obtain ⟨j', b'⟩ := q
        simp only [map_cons, List.cons.injEq] at hkeys
        obtain ⟨rfl, hkeys⟩ := hkeys
        have hrest : ∀ k, finalAt k l = finalAt k l' := by
          intro k
          have hk := h k
          cases hl : finalAt k l with
          | none =>
            have hmem := finalAt_eq_none_iff.mp hl
            rw [hkeys] at hmem
            exact (finalAt_eq_none_iff.mpr hmem).symm
          | some c =>
            cases hl' : finalAt k l' with
            | none =>
              have hmem := finalAt_eq_none_iff.mp hl'
              rw [← hkeys, ← finalAt_eq_none_iff, hl] at hmem
              cases hmem
            | some c' => simpa [finalAt_cons, hl, hl'] using hk
        rw [toMap_cons, toMap_cons, ← hkeys, ih hkeys hrest]
        split_ifs with hmem
        · rfl
        · have hnone : finalAt j l = none := finalAt_eq_none_iff.mpr hmem
          have hnone' : finalAt j l' = none := (hrest j).symm.trans hnone
          have hj := h j
          simp only [finalAt_cons, hnone, hnone', if_true, none_or, Option.some.injEq] at hj
          rw [hj]

end GolangBasics.Assign
