import GolangBasics.Errors
import Mathlib.Data.List.TakeDrop
import Mathlib.Data.List.TakeWhile

/-! Byte strings that are cut at a byte and joined with one, as package `strings` does it. -/
namespace GolangBasics.Strings
open List

/-- What stands before the last `c` and what stands behind it. -/
def cutLast (c : UInt8) (s : Bytes) : Option (Bytes × Bytes) :=
  match s.reverse.span (· ≠ c) with
  | (_, []) => none
  | (after, _ :: before) => some (before.reverse, after.reverse)

/-- `strings.Join` with one byte between the texts. -/
def joined (sep : UInt8) (texts : List Bytes) : Bytes := [sep].intercalate texts

section span
variable {α : Type} {p : α → Bool} {s : List α} (hs : ∀ b ∈ s, p b = true)
include hs

theorem span_stop {c : α} (hc : p c = false) (rest : List α) :
    (s ++ c :: rest).span p = (s, c :: rest) := by
  have hstop : ¬ p c = true := by rw [hc]; decide
  rw [span_eq_takeWhile_dropWhile, takeWhile_append_of_pos hs,
    dropWhile_append_of_pos hs, takeWhile_cons_of_neg hstop,
    dropWhile_cons_of_neg hstop, append_nil]

theorem span_all : s.span p = (s, []) := by
  rw [span_eq_takeWhile_dropWhile, takeWhile_eq_self_iff.mpr hs,
    dropWhile_eq_nil_iff.mpr hs]

end span

variable {c : UInt8}

theorem forall_ne_of_notMem {s : Bytes} (h : c ∉ s) : ∀ b ∈ s, decide (b ≠ c) = true :=
  fun _ hb => decide_eq_true fun heq => h (heq ▸ hb)

theorem mem_span_snd {s : Bytes} (h : c ∈ s) : c ∈ (s.span (· ≠ c)).2 := by
  rw [span_eq_takeWhile_dropWhile]
  rw [← takeWhile_append_dropWhile (p := (· ≠ c)) (l := s)] at h
  obtain h | h := mem_append.mp h
  · have hne := mem_takeWhile_imp h
    exact absurd rfl (of_decide_eq_true hne)
  · exact h

theorem cutLast_of_notMem {s : Bytes} (h : c ∉ s) : cutLast c s = none := by
  unfold cutLast
  rw [span_all (forall_ne_of_notMem fun hc => h (mem_reverse.mp hc))]

theorem cutLast_append {after : Bytes} (h : c ∉ after) (before : Bytes) :
    cutLast c (before ++ c :: after) = some (before, after) := by
  have hspan := span_stop (p := (· ≠ c)) (forall_ne_of_notMem fun hc => h (mem_reverse.mp hc))
    (decide_eq_false fun hne => hne rfl) before.reverse
  unfold cutLast
  rw [reverse_append, reverse_cons, append_assoc, singleton_append, hspan]
  dsimp only
  rw [reverse_reverse, reverse_reverse]

theorem cutLast_eq_some {s before after : Bytes} (h : cutLast c s = some (before, after)) :
    s = before ++ c :: after := by
  have hsplit := takeWhile_append_dropWhile (p := (· ≠ c)) (l := s.reverse)
  unfold cutLast at h
  rw [span_eq_takeWhile_dropWhile] at h
  cases hback : s.reverse.dropWhile (· ≠ c) with
  | nil =>
    rw [hback] at h
    cases h
  | cons b back =>
    have hb : b = c := by
      have hhead := List.head?_dropWhile_not (· ≠ c) s.reverse
      rw [hback] at hhead
      simpa using hhead
    rw [hback] at h hsplit
    obtain ⟨hbefore, hafter⟩ := Prod.mk.inj (Option.some.inj h)
    rw [← reverse_reverse s, ← hsplit, hb, reverse_append, reverse_cons,
      append_assoc, singleton_append, hbefore, hafter]

/-- A text that does not have the separator stands on one side of it. -/
theorem infix_append_sep {sub a b : Bytes} {sep : UInt8} (hsep : sep ∉ sub) (hne : sub ≠ []) :
    sub <:+: a ++ sep :: b ↔ sub <:+: a ∨ sub <:+: b := by
  constructor
  · rintro ⟨x, y, h⟩
    rw [append_assoc] at h
    obtain ⟨c, hc, hrest⟩ | ⟨c, hc, hrest⟩ := append_eq_append_iff.mp h
    · -- the text starts in front of the separator, and so ends there
      obtain ⟨d, hd, -⟩ | ⟨d, hd, hlast⟩ := append_eq_append_iff.mp hrest
      · exact .inl ⟨x, d, by rw [hc, hd, append_assoc]⟩
      · cases d with
        | nil => exact .inl ⟨x, [], by rw [hc, hd]; simp⟩
        | cons e d =>
          refine absurd ?_ hsep
          rw [hd, (List.cons.inj hlast).1]
          simp
    · cases c with
      | nil =>
        obtain ⟨e, t, rfl⟩ := exists_cons_of_ne_nil hne
        refine absurd ?_ hsep
        rw [(List.cons.inj hrest).1]
        exact mem_cons_self
      | cons e c =>
        refine .inr ⟨c, y, ?_⟩
        rw [append_assoc]
        exact (List.cons.inj hrest).2.symm
  · rintro (h | h)
    · exact h.trans (prefix_append _ _).isInfix
    · exact h.trans ((suffix_cons _ _).trans (suffix_append _ _)).isInfix

variable {sep : UInt8} {texts : List Bytes}

theorem joined_nil (sep : UInt8) : joined sep [] = [] := by
  simp [joined, List.intercalate]

theorem joined_singleton (sep : UInt8) (t : Bytes) : joined sep [t] = t := by
  simp [joined, List.intercalate]

theorem joined_cons (t : Bytes) (h : texts ≠ []) :
    joined sep (t :: texts) = t ++ sep :: joined sep texts := by
  obtain ⟨u, us, rfl⟩ := exists_cons_of_ne_nil h
  rfl

theorem joined_append {texts' : List Bytes} (h : texts ≠ []) (h' : texts' ≠ []) :
    joined sep (texts ++ texts') = joined sep texts ++ sep :: joined sep texts' := by
  induction texts with
  | nil => exact absurd rfl h
  | cons t texts ih =>
    have hne : texts ++ texts' ≠ [] := append_ne_nil_of_right_ne_nil texts h'
    rw [cons_append, joined_cons t hne]
    by_cases hlast : texts = []
    · rw [hlast, nil_append, joined_singleton]
    · rw [ih hlast, joined_cons t hlast, append_assoc, cons_append]

theorem joined_around (before after : List Bytes) (t : Bytes) :
    joined sep (before ++ t :: after) =
      before.flatMap (· ++ [sep]) ++ t ++ after.flatMap (sep :: ·) := by
  induction before with
  | nil =>
    induction after generalizing t with
    | nil => simp [joined_singleton]
    | cons u after ih =>
      have hu := ih u
      rw [nil_append] at hu ⊢
      rw [joined_cons t (cons_ne_nil _ _), hu]
      simp
  | cons u before ih =>
    rw [cons_append, joined_cons u (by simp), ih]
    simp

theorem subset_joined {t : Bytes} (ht : t ∈ texts) : t ⊆ joined sep texts := by
  obtain ⟨before, after, rfl⟩ := append_of_mem ht
  rw [joined_around]
  intro b hb
  simp [hb]

theorem sep_notMem_splitOn (sep : UInt8) (s : Bytes) : ∀ t ∈ s.splitOn sep, sep ∉ t := by
  induction s with
  | nil => simp
  | cons b s ih =>
    intro t ht
    rw [List.splitOn, splitOnP_cons_eq_if_modifyHead] at ht
    rw [List.splitOn] at ih
    split_ifs at ht with hb
    · obtain rfl | ht := mem_cons.mp ht
      · exact not_mem_nil
      · exact ih t ht
    · have hne : b ≠ sep := fun h => hb (beq_iff_eq.mpr h)
      cases hsplit : s.splitOnP (· == sep) with
      | nil =>
        rw [hsplit] at ht
        cases ht
      | cons u us =>
        rw [hsplit] at ht ih
        obtain rfl | ht := mem_cons.mp ht
        · simp [hne.symm, ih u mem_cons_self]
        · exact ih t (mem_cons_of_mem u ht)

theorem count_joined (h : ∀ t ∈ texts, sep ∉ t) (hne : texts ≠ []) :
    (joined sep texts).count sep + 1 = texts.length := by
  induction texts with
  | nil => exact absurd rfl hne
  | cons t texts ih =>
    obtain ⟨ht, htexts⟩ := forall_mem_cons.mp h
    have hcount : t.count sep = 0 := count_eq_zero.mpr ht
    by_cases hlast : texts = []
    · rw [hlast, joined_singleton, hcount]
      rfl
    · rw [joined_cons t hlast, count_append, count_cons_self, hcount, Nat.zero_add,
        ih htexts hlast, length_cons]

theorem joined_ne_nil (hne : texts ≠ []) (h : ∀ t ∈ texts, t ≠ []) : joined sep texts ≠ [] := by
  obtain ⟨t, ts, rfl⟩ := exists_cons_of_ne_nil hne
  have ht := h t mem_cons_self
  by_cases hts : ts = []
  · rw [hts, joined_singleton]
    exact ht
  · rw [joined_cons t hts]
    exact append_ne_nil_of_left_ne_nil ht _

theorem mem_joined {b : UInt8} (h : b ∈ joined sep texts) : b = sep ∨ ∃ t ∈ texts, b ∈ t := by
  induction texts with
  | nil => rw [joined_nil] at h; cases h
  | cons t texts ih =>
    by_cases hlast : texts = []
    · rw [hlast, joined_singleton] at h
      exact .inr ⟨t, mem_cons_self, h⟩
    · rw [joined_cons t hlast, mem_append, mem_cons] at h
      obtain h | h | h := h
      · exact .inr ⟨t, mem_cons_self, h⟩
      · exact .inl h
      · obtain h | ⟨u, hu, hb⟩ := ih h
        · exact .inl h
        · exact .inr ⟨u, mem_cons_of_mem t hu, hb⟩

theorem sep_mem_joined (h : 2 ≤ texts.length) : sep ∈ joined sep texts := by
  obtain ⟨t, texts, rfl⟩ := exists_cons_of_length_pos (by omega : 0 < texts.length)
  have hne : texts ≠ [] := ne_nil_of_length_pos (by rw [length_cons] at h; omega)
  rw [joined_cons t hne]
  exact mem_append_right _ mem_cons_self

end GolangBasics.Strings
