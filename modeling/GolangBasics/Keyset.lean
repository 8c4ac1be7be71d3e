import Mathlib.Data.List.Sort

/-! Keyset pagination over any linear order of keys: rows are read in descending key order,
and a page starts strictly below the key the last page ended with. Rows may come and go
between two pages. -/
namespace GolangBasics.Keyset
open List

section select
variable {α κ : Type} [LinearOrder κ] (key : α → κ)

/-- Strictly below the end of the last page; at the start of a walk every key is. -/
def Below (after : Option κ) (k : κ) : Prop :=
  match after with
  | none => True
  | some c => k < c

instance (after : Option κ) (k : κ) : Decidable (Below after k) :=
  match after with
  | none => .isTrue trivial
  | some c => inferInstanceAs (Decidable (k < c))

def select (after : Option κ) (rows : List α) : List α :=
  (rows.filter fun r => Below after (key r)).insertionSort fun a b => key b ≤ key a

def Falls (l : List α) : Prop := l.Pairwise fun a b => key b < key a

variable {key}

theorem mem_select {after : Option κ} {rows : List α} {r : α} :
    r ∈ select key after rows ↔ r ∈ rows ∧ Below after (key r) := by
  simp [select]

theorem falls_select {after : Option κ} {rows : List α} (hnodup : (rows.map key).Nodup) :
    Falls key (select key after rows) := by
  have hsorted : (select key after rows).Pairwise fun a b => key b ≤ key a := by
    have : Std.Total fun a b : α => key b ≤ key a := ⟨fun a b => le_total (key b) (key a)⟩
    have : IsTrans α fun a b : α => key b ≤ key a := ⟨fun _ _ _ hab hbc => hbc.trans hab⟩
    exact pairwise_insertionSort _ _
  have hdistinct : (select key after rows).Pairwise fun a b => key a ≠ key b := by
    have hfilter := hnodup.sublist ((filter_sublist
      (p := fun r => decide (Below after (key r))) (l := rows)).map key)
    have hperm : ((select key after rows).map key).Perm
        ((rows.filter fun r => decide (Below after (key r))).map key) :=
      (perm_insertionSort _ _).map key
    exact pairwise_map.mp (hperm.nodup_iff.mpr hfilter)
  exact hsorted.imp₂ (fun _ _ hle hne => lt_of_le_of_ne hle hne.symm) hdistinct

theorem length_select (after : Option κ) (rows : List α) :
    (select key after rows).length = (rows.filter fun r => Below after (key r)).length :=
  length_insertionSort ..

end select

/-- One page of a walk: the rows at the time of its query, the number of items asked for,
the items given, and the token to go on with. -/
structure Visit (α τ : Type) where
  rows : List α
  size : Nat
  items : List α
  next : Option τ

def Ended {α τ : Type} (visits : List (Visit α τ)) : Prop :=
  ∃ v, visits.getLast? = some v ∧ v.next = none

theorem Ended.cons {α τ : Type} {v : Visit α τ} {vs : List (Visit α τ)} (h : Ended vs) :
    Ended (v :: vs) := by
  obtain ⟨l, hl, hnone⟩ := h
  have hne : vs ≠ [] := by
    rintro rfl
    simp at hl
  refine ⟨l, ?_, hnone⟩
  rw [List.getLast?_cons_of_ne_nil hne]
  exact hl

section visit
variable {α τ κ : Type} [LinearOrder κ] (key : α → κ)

structure Visit.Reads (after : Option κ) (v : Visit α τ) : Prop where
  distinct : (v.rows.map key).Nodup
  positive : 0 < v.size
  items_eq : v.items = (select key after v.rows).take v.size
  next_iff : v.next.isSome ↔ v.size < (select key after v.rows).length

/-- Each page starts where the one before it ended, and only the last has no next. -/
def Walk : Option κ → List (Visit α τ) → Prop
  | _, [] => True
  | after, v :: vs =>
    v.Reads key after ∧ (v.next = none → vs = []) ∧
      (v.next.isSome → Walk (v.items.getLast?.map key) vs)

variable {key} {after : Option κ} {v : Visit α τ} {vs : List (Visit α τ)}

theorem Visit.Reads.falls (h : v.Reads key after) : Falls key v.items := by
  rw [h.items_eq]
  exact (falls_select h.distinct).sublist (take_sublist ..)

theorem Visit.Reads.mem (h : v.Reads key after) {r : α} (hr : r ∈ v.items) :
    r ∈ v.rows ∧ Below after (key r) := by
  rw [h.items_eq] at hr
  exact mem_select.mp (mem_of_mem_take hr)

theorem Visit.Reads.full (h : v.Reads key after) (hnext : v.next.isSome) :
    v.items.length = v.size := by
  have hlt := h.next_iff.mp hnext
  rw [h.items_eq, length_take]
  omega

theorem Visit.Reads.items_ne_nil (h : v.Reads key after) (hnext : v.next.isSome) :
    v.items ≠ [] := by
  have hfull := h.full hnext
  have hpos := h.positive
  exact ne_nil_of_length_pos (by omega)

/-- A row still to come that is not on the page lies below every item of it, and the page
has a next one. -/
theorem Visit.Reads.rest (h : v.Reads key after) {r : α} (hr : r ∈ v.rows)
    (hbelow : Below after (key r)) (hnot : r ∉ v.items) :
    v.next.isSome ∧ ∀ u ∈ v.items, key r < key u := by
  have hfalls : Falls key (select key after v.rows) := falls_select h.distinct
  have hsel : r ∈ select key after v.rows := mem_select.mpr ⟨hr, hbelow⟩
  rw [← take_append_drop v.size (select key after v.rows)] at hsel hfalls
  rw [← h.items_eq] at hsel hfalls
  have hdrop := (mem_append.mp hsel).resolve_left hnot
  have hlt : v.size < (select key after v.rows).length := by
    have hpos := length_pos_of_mem hdrop
    rw [length_drop] at hpos
    omega
  refine ⟨h.next_iff.mpr hlt, ?_⟩
  intro u hu
  exact (pairwise_append.mp hfalls).2.2 u hu r hdrop

theorem Visit.Reads.next_iff_exists (h : v.Reads key after) :
    v.next.isSome ↔ ∃ r ∈ v.rows, Below after (key r) ∧ ∀ u ∈ v.items, key r < key u := by
  constructor
  · intro hnext
    have hlt := h.next_iff.mp hnext
    have hmem := getElem_mem hlt
    obtain ⟨hrow, hbelow⟩ := mem_select.mp hmem
    refine ⟨_, hrow, hbelow, ?_⟩
    intro u hu
    rw [h.items_eq] at hu
    obtain ⟨i, hi, rfl⟩ := mem_take_iff_getElem.mp hu
    exact pairwise_iff_getElem.mp (falls_select h.distinct) i v.size _ hlt (by omega)
  · rintro ⟨r, hr, hbelow, hlt⟩
    have hnot : r ∉ v.items := fun hmem => lt_irrefl _ (hlt r hmem)
    exact (h.rest hr hbelow hnot).1

theorem Visit.Reads.below_last_iff (h : v.Reads key after) (hnext : v.next.isSome) {k : κ} :
    Below (v.items.getLast?.map key) k ↔ Below after k ∧ ∀ u ∈ v.items, k < key u := by
  have hne := h.items_ne_nil hnext
  have hlast := getLast_mem hne
  rw [List.getLast?_eq_some_getLast hne]
  show k < key (v.items.getLast hne) ↔ _
  constructor
  · intro hk
    have hstart := (h.mem hlast).2
    have hle : ∀ u ∈ v.items, key (v.items.getLast hne) ≤ key u := by
      have hfalls := h.falls
      rw [← dropLast_append_getLast hne] at hfalls
      intro u hu
      rw [← dropLast_append_getLast hne, mem_append, mem_singleton] at hu
      obtain hu | rfl := hu
      · exact ((pairwise_append.mp hfalls).2.2 u hu _ (by simp)).le
      · exact le_refl _
    refine ⟨?_, fun u hu => hk.trans_le (hle u hu)⟩
    cases after with
    | none => trivial
    | some c => exact hk.trans hstart
  · intro hk
    exact hk.2 _ hlast

theorem Visit.Reads.fewer (h : v.Reads key after) (hnext : v.next.isSome) :
    (select key (v.items.getLast?.map key) v.rows).length <
      (select key after v.rows).length := by
  have hne := h.items_ne_nil hnext
  obtain ⟨hrow, hbelow⟩ := h.mem (getLast_mem hne)
  set last := v.items.getLast hne
  have hsub : (v.rows.filter fun r => Below (v.items.getLast?.map key) (key r)) =
      (v.rows.filter fun r => Below after (key r)).filter fun r =>
        Below (v.items.getLast?.map key) (key r) := by
    rw [filter_filter]
    apply filter_congr
    intro r _
    have := h.below_last_iff hnext (k := key r)
    grind
  rw [length_select, length_select, hsub, length_filter_lt_length_iff_exists]
  refine ⟨last, by simp [hrow, hbelow], ?_⟩
  rw [List.getLast?_eq_some_getLast hne]
  simp [Below, last]

theorem Walk.tail (h : Walk key after (v :: vs)) (hne : vs ≠ []) :
    v.next.isSome ∧ Walk key (v.items.getLast?.map key) vs := by
  have hnext : v.next.isSome := by
    by_contra hnone
    exact hne (h.2.1 (by simpa using hnone))
  exact ⟨hnext, h.2.2 hnext⟩

theorem Walk.reads (h : Walk key after vs) (hv : v ∈ vs) : ∃ start, v.Reads key start := by
  induction vs generalizing after with
  | nil => simp at hv
  | cons w vs ih =>
    obtain rfl | hv := mem_cons.mp hv
    · exact ⟨after, h.1⟩
    · exact ih (h.tail (ne_nil_of_mem hv)).2 hv

theorem Walk.below (h : Walk key after vs) :
    ∀ r ∈ vs.flatMap Visit.items, Below after (key r) := by
  induction vs generalizing after with
  | nil => simp
  | cons v vs ih =>
    intro r hr
    rw [flatMap_cons, mem_append] at hr
    obtain hr | hr := hr
    · exact (h.1.mem hr).2
    · have hne : vs ≠ [] := by
        rintro rfl
        simp at hr
      obtain ⟨hnext, htail⟩ := h.tail hne
      exact ((h.1.below_last_iff hnext).mp (ih htail r hr)).1

/-- Along a whole walk the keys fall: no item comes twice. -/
theorem Walk.falls (h : Walk key after vs) : Falls key (vs.flatMap Visit.items) := by
  induction vs generalizing after with
  | nil => exact List.Pairwise.nil
  | cons v vs ih =>
    rw [flatMap_cons]
    by_cases hvs : vs = []
    · simpa [hvs] using h.1.falls
    · obtain ⟨hnext, htail⟩ := h.tail hvs
      apply pairwise_append.mpr
      refine ⟨h.1.falls, ih htail, ?_⟩
      intro u hu r hr
      exact ((h.1.below_last_iff hnext).mp (htail.below r hr)).2 u hu

theorem Walk.full (h : Walk key after vs) {i : Nat} (hi : vs[i]? = some v)
    (hlast : i + 1 < vs.length) : v.items.length = v.size := by
  induction vs generalizing after i with
  | nil => simp at hi
  | cons w vs ih =>
    rw [length_cons] at hlast
    have hne : vs ≠ [] := ne_nil_of_length_pos (by omega)
    obtain ⟨hnext, htail⟩ := h.tail hne
    cases i with
    | zero =>
      have : w = v := by simpa using hi
      subst this
      exact h.1.full hnext
    | succ i => exact ih htail (by simpa using hi) (by omega)

/-- A page has a next one exactly when a row lay below all that was given so far. -/
theorem Walk.next_iff (h : Walk key after vs) {i : Nat} (hi : vs[i]? = some v) :
    v.next.isSome ↔ ∃ r ∈ v.rows, Below after (key r) ∧
      ∀ u ∈ (vs.take (i + 1)).flatMap Visit.items, key r < key u := by
  induction vs generalizing after i with
  | nil => simp at hi
  | cons w vs ih =>
    cases i with
    | zero =>
      have : w = v := by simpa using hi
      subst this
      simpa using h.1.next_iff_exists
    | succ i =>
      have hv : vs[i]? = some v := by simpa using hi
      obtain ⟨hnext, htail⟩ := h.tail (ne_nil_of_mem (mem_of_getElem? hv))
      rw [ih htail hv]
      simp only [h.1.below_last_iff hnext, take_succ_cons, flatMap_cons,
        mem_append, or_imp, forall_and, and_assoc]

/-- A walk to the end gives every key that has a row at the time of each page. -/
theorem Walk.complete (h : Walk key after vs) (hended : Ended vs) {k : κ}
    (hbelow : Below after k) (hrows : ∀ v ∈ vs, ∃ r ∈ v.rows, key r = k) :
    ∃ v ∈ vs, ∃ r ∈ v.items, key r = k := by
  induction vs generalizing after with
  | nil => simp [Ended] at hended
  | cons v vs ih =>
    obtain ⟨hv, hend, hrest⟩ := h
    obtain ⟨r, hr, rfl⟩ := hrows v (by simp)
    by_cases hmem : r ∈ v.items
    · exact ⟨v, by simp, r, hmem, rfl⟩
    · obtain ⟨hnext, hlt⟩ := hv.rest hr hbelow hmem
      have htail : Ended vs := by
        obtain ⟨l, hl, hnone⟩ := hended
        cases vs with
        | nil =>
          have : v = l := by simpa using hl
          subst this
          simp [hnone] at hnext
        | cons w ws => exact ⟨l, by simpa using hl, hnone⟩
      obtain ⟨w, hw, hitem⟩ := ih (hrest hnext) htail
        ((hv.below_last_iff hnext).mpr ⟨hbelow, hlt⟩) (fun w hw => hrows w (by simp [hw]))
      exact ⟨w, by simp [hw], hitem⟩

end visit
end GolangBasics.Keyset
