import GolangBasics.Conc.Overwrite
import GolangBasics.Resilient.Window
import Mathlib.Order.Fin.Basic

/-! What the sliding window has in it after any calls of `add`: an entry for another slot of
time wipes out what its place in the ring held, and `sum` adds up the rest. -/
namespace GolangBasics.Resilient
open Conc List

structure Entry where
  now : Nat
  a : Int
  b : Int

def Entry.place (unit : Nat) (e : Entry) : Fin windowSlots := ring (e.now / unit)

/-- A new entry leaves an old one in place: they are of one slot of time, or their slots have
different places in the ring. -/
def spares (unit now old : Nat) : Bool :=
  ring (old / unit) = ring (now / unit) → old / unit = now / unit

def inWindow (unit now time : Nat) : Bool := now / unit < time / unit + windowSlots

def placeTotal (f : Entry → Int) (unit : Nat) (r : Fin windowSlots) (es : List Entry) : Int :=
  ((es.filter (·.place unit = r)).map f).sum

/-- The window is what the entries add up to at each place of the ring. -/
structure Window.Holds (w : Window) (es : List Entry) : Prop where
  idx : ∀ e ∈ es, (w.slots (e.place w.slot)).idx = e.now / w.slot
  a : ∀ r, (w.slots r).a = placeTotal Entry.a w.slot r es
  b : ∀ r, (w.slots r).b = placeTotal Entry.b w.slot r es

variable {w : Window} {es : List Entry}

theorem holds_new (length : Nat) : (newWindow length).Holds [] :=
  ⟨by simp, fun _ => rfl, fun _ => rfl⟩

theorem holds_reset (w : Window) : w.reset.Holds [] :=
  ⟨by simp, fun _ => rfl, fun _ => rfl⟩

@[simp] theorem slot_add (w : Window) (now : Nat) (a b : Int) : (w.add now a b).slot = w.slot := rfl

theorem add_self (w : Window) (now : Nat) (a b : Int) :
    (w.add now a b).slots (ring (now / w.slot)) =
      if (w.slots (ring (now / w.slot))).idx = now / w.slot then
        ⟨(w.slots (ring (now / w.slot))).idx, (w.slots (ring (now / w.slot))).a + a,
          (w.slots (ring (now / w.slot))).b + b⟩
      else ⟨now / w.slot, a, b⟩ := by
  unfold Window.add
  by_cases h : (w.slots (ring (now / w.slot))).idx = now / w.slot <;> simp [h]

theorem add_other (w : Window) (now : Nat) (a b : Int) {r : Fin windowSlots}
    (h : r ≠ ring (now / w.slot)) : (w.add now a b).slots r = w.slots r := by
  simp [Window.add, Function.update_of_ne h]

/-- What an entry leaves at a place: nothing if the place held another slot of time than the
entry's own, and everything otherwise. -/
theorem filter_spares (h : w.Holds es) (now : Nat) (r : Fin windowSlots) :
    (es.filter fun e => spares w.slot now e.now).filter (·.place w.slot = r) =
      if r = ring (now / w.slot) ∧ (w.slots r).idx ≠ now / w.slot then []
      else es.filter (·.place w.slot = r) := by
  rw [filter_filter]
  split
  · rename_i hother
    refine filter_eq_nil_iff.mpr fun e he => ?_
    have hidx := h.idx e he
    simp only [Bool.and_eq_true, decide_eq_true_eq, not_and, spares]
    intro hplace hspare
    rw [hplace] at hidx
    exact hother.2 (hidx.trans (hspare (hplace.trans hother.1)))
  · rename_i hsame
    refine filter_congr fun e he => ?_
    have hidx := h.idx e he
    by_cases hplace : e.place w.slot = r
    · simp only [hplace, decide_true, Bool.true_and, spares, decide_eq_true_eq]
      rw [hplace] at hidx
      intro hring
      have hr : r = ring (now / w.slot) := hplace.symm.trans hring
      rw [← hidx]
      exact not_not.mp fun hne => hsame ⟨hr, hne⟩
    · simp [hplace]

theorem placeTotal_add (h : w.Holds es) (f : Entry → Int) (e : Entry) (r : Fin windowSlots) :
    placeTotal f w.slot r (e :: es.filter fun old => spares w.slot e.now old.now) =
      if r = ring (e.now / w.slot) then
        if (w.slots r).idx = e.now / w.slot then f e + placeTotal f w.slot r es else f e
      else placeTotal f w.slot r es := by
  unfold placeTotal
  rw [filter_cons, filter_spares h]
  by_cases hr : r = ring (e.now / w.slot)
  · have hplace : e.place w.slot = r := hr.symm
    by_cases hidx : (w.slots r).idx = e.now / w.slot
    · simp [hplace, hr, hr ▸ hidx]
    · simp [hplace, hr, hr ▸ hidx]
  · have hplace : ¬e.place w.slot = r := fun heq => hr heq.symm
    simp [hplace, hr]

theorem add_total (h : w.Holds es) {e : Entry} {count : WindowSlot → Int} {f : Entry → Int}
    (hcount : ∀ r, count (w.slots r) = placeTotal f w.slot r es)
    (hmore : ∀ idx a b, count ⟨idx, a + e.a, b + e.b⟩ = f e + count ⟨idx, a, b⟩)
    (hnew : ∀ idx, count ⟨idx, e.a, e.b⟩ = f e) (r : Fin windowSlots) :
    count ((w.add e.now e.a e.b).slots r) = placeTotal f (w.add e.now e.a e.b).slot r
      (e :: es.filter fun old => spares w.slot e.now old.now) := by
  rw [slot_add, placeTotal_add h]
  by_cases hr : r = ring (e.now / w.slot)
  · subst hr
    rw [add_self, if_pos rfl]
    split
    · rw [hmore, ← hcount]
    · exact hnew _
  · rw [if_neg hr, add_other w _ _ _ hr, hcount]

/-- The step lemma: `add` counts the new entry and wipes out those it does not spare. -/
theorem Window.Holds.add (h : w.Holds es) (e : Entry) :
    (w.add e.now e.a e.b).Holds (e :: es.filter fun old => spares w.slot e.now old.now) := by
  have hself : ((w.add e.now e.a e.b).slots (ring (e.now / w.slot))).idx = e.now / w.slot := by
    rw [add_self]
    split <;> trivial
  constructor
  · intro x hx
    rw [slot_add]
    rcases mem_cons.mp hx with rfl | hx
    · exact hself
    · obtain ⟨hmem, hspare⟩ := mem_filter.mp hx
      have hidx := h.idx x hmem
      simp only [Entry.place] at hidx ⊢
      by_cases hr : ring (x.now / w.slot) = ring (e.now / w.slot)
      · have heq : x.now / w.slot = e.now / w.slot := by simpa [spares, hr] using hspare
        rw [hr, hself, heq]
      · rw [add_other w _ _ _ hr, hidx]
  · exact add_total h h.a (fun _ _ _ => Int.add_comm _ _) fun _ => rfl
  · exact add_total h h.b (fun _ _ _ => Int.add_comm _ _) fun _ => rfl

theorem foldl_pair {ι : Type} (f g : ι → Int) (xs : List ι) (acc : Int × Int) :
    xs.foldl (fun acc i => (acc.1 + f i, acc.2 + g i)) acc =
      (acc.1 + (xs.map f).sum, acc.2 + (xs.map g).sum) := by
  induction xs generalizing acc with
  | nil => simp
  | cons x xs ih => simp [ih, Int.add_assoc]

/-- The entries of the places that `sum` visits are those the window has not moved past. -/
theorem filter_counts (h : w.Holds es) (now : Nat) :
    (es.filter fun e => e.place w.slot ∈ (List.finRange windowSlots).filter (w.counts now)) =
      es.filter fun e => inWindow w.slot now e.now := by
  refine filter_congr fun e he => ?_
  have hidx := h.idx e he
  simp only [mem_filter, mem_finRange, true_and, Bool.decide_eq_true, Window.counts,
    hidx, inWindow]
  refine decide_eq_decide.mpr ?_
  omega

/-- `sum` adds up the entries that are left and that the window has not moved past. -/
theorem Window.Holds.sum (h : w.Holds es) (now : Nat) :
    w.sum now = (((es.filter fun e => inWindow w.slot now e.now).map Entry.a).sum,
      ((es.filter fun e => inWindow w.slot now e.now).map Entry.b).sum) := by
  have hnodup : ((List.finRange windowSlots).filter (w.counts now)).Nodup :=
    (nodup_finRange _).filter _
  unfold Window.sum
  rw [foldl_pair]
  simp only [h.a, h.b, placeTotal, sum_map_sum_filter _ _ _ hnodup, filter_counts h, Int.zero_add]

/-- An entry the window has not moved past keeps its place: whoever took it would be a whole
window later. -/
theorem spares_of_inWindow {unit now new old : Nat} (hin : inWindow unit now old)
    (hle : old / unit ≤ new / unit) (hlast : new / unit ≤ now / unit) : spares unit new old := by
  refine decide_eq_true fun hring => ?_
  have hmod : old / unit % 10 = new / unit % 10 := congrArg Fin.val hring
  have hnear : now / unit < old / unit + 10 := of_decide_eq_true hin
  omega

/-- Calls of `add` at times that never go back lose nothing that is still in the window. -/
theorem filter_survivors_of_sorted {α : Type} {time : α → Nat} {unit now : Nat} {log : List α}
    (hsorted : log.Pairwise fun new old => time old ≤ time new)
    (hlast : ∀ x ∈ log, time x ≤ now) :
    (survivors (fun new old => spares unit (time new) (time old)) log).filter
        (fun x => inWindow unit now (time x)) =
      log.filter fun x => inWindow unit now (time x) := by
  refine (filter_survivors_eq_iff _ _).mpr ?_
  refine hsorted.imp_of_mem fun {new old} hnew _ hle hin => ?_
  have hbefore : time old / unit ≤ time new / unit := Nat.div_le_div_right hle
  exact spares_of_inWindow hin hbefore (Nat.div_le_div_right (hlast new hnew))

/-! ### Whole runs -/

inductive WindowCall where
  | add (now : Nat) (a b : Int)
  | reset

def WindowCall.time : WindowCall → Option Nat
  | add now _ _ => some now
  | reset => none

def Window.call (w : Window) : WindowCall → Window
  | .add now a b => w.add now a b
  | .reset => w.reset

def Window.calls (w : Window) (cs : List WindowCall) : Window := cs.foldl Window.call w

/-- What was added since the last reset, newest first, after `es`. -/
def sinceReset (es : List Entry) (cs : List WindowCall) : List Entry :=
  cs.foldl (fun es c =>
    match c with
    | .add now a b => ⟨now, a, b⟩ :: es
    | .reset => []) es

/-- What the ring holds after some calls, next to what was added. -/
abbrev Window.Keeps (w : Window) (es : List Entry) : Prop :=
  w.Holds (survivors (fun new old => spares w.slot new.now old.now) es)

theorem slot_calls (w : Window) (cs : List WindowCall) : (w.calls cs).slot = w.slot := by
  induction cs generalizing w with
  | nil => rfl
  | cons c cs ih =>
    have hslot : (w.call c).slot = w.slot := by cases c <;> rfl
    exact (ih (w.call c)).trans hslot

/-- The run lemma: every call keeps the ring and the history together. -/
theorem Window.Keeps.calls (h : w.Keeps es) (cs : List WindowCall) :
    (w.calls cs).Keeps (sinceReset es cs) := by
  induction cs generalizing w es with
  | nil => exact h
  | cons c cs ih =>
    cases c with
    | add now a b =>
      have hadd : (w.add now a b).Keeps (⟨now, a, b⟩ :: es) := h.add ⟨now, a, b⟩
      exact ih hadd
    | reset =>
      have hreset : w.reset.Keeps [] := holds_reset w
      exact ih hreset

theorem sinceReset_times (es : List Entry) (cs : List WindowCall) :
    ((sinceReset es cs).reverse.map Entry.now).Sublist
      (es.reverse.map Entry.now ++ cs.filterMap WindowCall.time) := by
  induction cs generalizing es with
  | nil => exact (append_nil _).symm ▸ List.Sublist.refl _
  | cons c cs ih =>
    cases c with
    | add now a b =>
      have hrest := ih (⟨now, a, b⟩ :: es)
      rw [reverse_cons, map_append, append_assoc] at hrest
      exact hrest
    | reset => exact (ih []).trans (sublist_append_right _ _)

/-- The ring of ten entries counts as if every entry were kept. -/
theorem sum_calls (slot : Nat) (cs : List WindowCall)
    (hforward : (cs.filterMap WindowCall.time).Pairwise (· ≤ ·)) (now : Nat)
    (hlast : ∀ t ∈ cs.filterMap WindowCall.time, t ≤ now) :
    let counted := (sinceReset [] cs).filter fun e =>
      ((now / slot : Nat) : Int) - windowSlots < (e.now / slot : Nat)
    (Window.calls ⟨slot, fun _ => ⟨0, 0, 0⟩⟩ cs).sum now =
      ((counted.map Entry.a).sum, (counted.map Entry.b).sum) := by
  intro counted
  have htimes := sinceReset_times [] cs
  rw [reverse_nil, map_nil, nil_append] at htimes
  have hsorted : (sinceReset [] cs).Pairwise fun new old => old.now ≤ new.now := by
    have hpairs := hforward.sublist htimes
    rw [pairwise_map, pairwise_reverse] at hpairs
    exact hpairs
  have hbefore : ∀ e ∈ sinceReset [] cs, e.now ≤ now := by
    intro e he
    exact hlast e.now (htimes.subset (mem_map_of_mem (mem_reverse.mpr he)))
  have hcounted : counted = (sinceReset [] cs).filter fun e => inWindow slot now e.now := by
    refine filter_congr fun e _ => decide_eq_decide.mpr ?_
    omega
  have hstart : Window.Keeps ⟨slot, fun _ => ⟨0, 0, 0⟩⟩ [] := holds_reset ⟨slot, fun _ => ⟨0, 0, 0⟩⟩
  have hsum := (hstart.calls cs).sum now
  rw [slot_calls, filter_survivors_of_sorted hsorted hbefore, ← hcounted] at hsum
  exact hsum

/-- The first entry after the reset has left the window, and its place in the ring is taken. -/
theorem sum_calls_lap :
    (Window.calls ⟨10, fun _ => ⟨0, 0, 0⟩⟩
      [.add 1 5 5, .reset, .add 7 2 1, .add 95 3 0, .add 107 1 1]).sum 109 = (4, 1) :=
  (sum_calls 10 [.add 1 5 5, .reset, .add 7 2 1, .add 95 3 0, .add 107 1 1] (by decide) 109
    (by decide)).trans (by decide)

end GolangBasics.Resilient
