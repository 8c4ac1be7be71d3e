import GolangBasics.Errors
import GolangBasics.Recency
import Mathlib.Logic.Function.Basic

/-! The bounded set of event ids of the worker, with the linked list of `container/list` and
the map into it. -/
namespace GolangBasics.Worker
open Recency List

structure Element where
  ref : Nat
  value : Bytes
  deriving DecidableEq

def moveToFront (order : List Element) (ref : Nat) : List Element :=
  match order.find? fun e => e.ref = ref with
  | some e => e :: order.filter fun e => e.ref ≠ ref
  | none => order

def remove (order : List Element) (ref : Nat) : List Element := order.filter fun e => e.ref ≠ ref

/-- The fields of `lru`; `fresh` is the next unused address. -/
structure Fields where
  size : Nat
  order : List Element
  items : Bytes → Option Nat
  fresh : Nat

namespace Fields

def contains (l : Fields) (id : Bytes) : Bool × Fields :=
  match l.items id with
  | some e => (true, { l with order := moveToFront l.order e })
  | none => (false, l)

def add (l : Fields) (id : Bytes) : Fields :=
  match l.items id with
  | some e => { l with order := moveToFront l.order e }
  | none =>
    let order := ⟨l.fresh, id⟩ :: l.order
    let items := Function.update l.items id (some l.fresh)
    let l := { l with order := order, items := items, fresh := l.fresh + 1 }
    if order.length > l.size then
      match order.getLast? with
      | some oldest => { l with order := remove order oldest.ref
                                items := Function.update items oldest.value none }
      | none => l
    else l

def ids (l : Fields) : List Bytes := l.order.map Element.value

/-- The map and the list hold the same ids, none twice and not too many. -/
structure Wf (l : Fields) : Prop where
  refs : (l.order.map Element.ref).Nodup
  distinct : l.ids.Nodup
  items : ∀ id ref, l.items id = some ref ↔ ⟨ref, id⟩ ∈ l.order
  fresh : ∀ e ∈ l.order, e.ref < l.fresh
  bounded : l.order.length ≤ l.size

variable {l : Fields} {id : Bytes} {ref : Nat}

theorem Wf.items_none (h : l.Wf) : l.items id = none ↔ id ∉ l.ids := by
  rw [Option.eq_none_iff_forall_ne_some]
  constructor
  · intro hnone hin
    obtain ⟨e, he, rfl⟩ := mem_map.mp hin
    exact hnone e.ref ((h.items e.value e.ref).mpr he)
  · intro hnot ref hitem
    exact hnot (mem_map.mpr ⟨_, (h.items id ref).mp hitem, rfl⟩)

theorem Wf.split (h : l.Wf) (hitem : l.items id = some ref) :
    ∃ pre post, l.order = pre ++ ⟨ref, id⟩ :: post ∧
      (∀ e ∈ pre ++ post, e.ref ≠ ref) ∧ id ∉ pre.map Element.value := by
  obtain ⟨pre, post, hsplit⟩ := append_of_mem ((h.items id ref).mp hitem)
  have hrefs := h.refs
  have hdistinct := h.distinct
  unfold ids at hdistinct
  rw [hsplit, map_append, map_cons, nodup_middle, nodup_cons] at hrefs hdistinct
  refine ⟨pre, post, hsplit, fun e he heq => hrefs.1 ?_, fun hin => hdistinct.1 ?_⟩
  · rw [← map_append]
    exact mem_map.mpr ⟨e, he, heq⟩
  · exact mem_append_left _ hin

theorem filter_ref {order : List Element} (h : ∀ e ∈ order, e.ref ≠ ref) :
    (order.filter fun e => e.ref ≠ ref) = order :=
  filter_eq_self.mpr fun e he => by simpa using h e he

theorem moveToFront_eq {pre post : List Element} {e : Element}
    (h : ∀ d ∈ pre ++ post, d.ref ≠ e.ref) :
    moveToFront (pre ++ e :: post) e.ref = e :: (pre ++ post) := by
  have hpre : ∀ d ∈ pre, d.ref ≠ e.ref := fun d hd => h d (mem_append_left _ hd)
  have hpost : ∀ d ∈ post, d.ref ≠ e.ref := fun d hd => h d (mem_append_right _ hd)
  have hfind : (pre ++ e :: post).find? (fun d => d.ref = e.ref) = some e := by
    have hnone : pre.find? (fun d => d.ref = e.ref) = none :=
      List.find?_eq_none.mpr fun d hd => by simpa using hpre d hd
    simp [List.find?_append, hnone]
  unfold moveToFront
  rw [hfind]
  simp only [filter_append, filter_ref hpre]
  rw [filter_cons_of_neg (by simp), filter_ref hpost]

theorem Wf.refresh (h : l.Wf) (hitem : l.items id = some ref) :
    Wf { l with order := moveToFront l.order ref } ∧
      ids { l with order := moveToFront l.order ref } = touch l.size l.ids id := by
  obtain ⟨pre, post, hsplit, hothers, hnot⟩ := h.split hitem
  have hmoved : moveToFront l.order ref = ⟨ref, id⟩ :: (pre ++ post) := by
    rw [hsplit]
    exact moveToFront_eq (e := ⟨ref, id⟩) hothers
  have hperm : (moveToFront l.order ref).Perm l.order := by
    rw [hmoved, hsplit]
    exact perm_middle.symm
  constructor
  · refine ⟨?_, ?_, fun i r => ?_, fun e he => h.fresh e (hperm.mem_iff.mp he), ?_⟩
    · exact (hperm.map Element.ref).nodup_iff.mpr h.refs
    · exact (hperm.map Element.value).nodup_iff.mpr h.distinct
    · exact (h.items i r).trans hperm.mem_iff.symm
    · exact hperm.length_eq.trans_le h.bounded
  · have hids : l.ids = pre.map Element.value ++ id :: post.map Element.value := by
      unfold ids
      rw [hsplit, map_append, map_cons]
    rw [hids, touch_middle hnot]
    unfold ids
    rw [hmoved, map_cons, map_append]

theorem Wf.contains (h : l.Wf) (id : Bytes) :
    (l.contains id).2.Wf ∧ (l.contains id).1 = decide (id ∈ l.ids) ∧
      (l.contains id).2.size = l.size ∧
      (l.contains id).2.ids = if id ∈ l.ids then touch l.size l.ids id else l.ids := by
  unfold Fields.contains
  cases hitem : l.items id with
  | none =>
    have hnot := h.items_none.mp hitem
    exact ⟨h, by simp [hnot], rfl, by simp [hnot]⟩
  | some ref =>
    have hin : id ∈ l.ids := by
      by_contra hnot
      simp [h.items_none.mpr hnot] at hitem
    obtain ⟨hwf, hids⟩ := h.refresh hitem
    exact ⟨hwf, by simp [hin], rfl, by rw [hids, if_pos hin]⟩

theorem Wf.push (h : l.Wf) (hnew : id ∉ l.ids) :
    ((⟨l.fresh, id⟩ :: l.order).map Element.ref).Nodup ∧
    ((⟨l.fresh, id⟩ :: l.order).map Element.value).Nodup ∧
    (∀ i r, Function.update l.items id (some l.fresh) i = some r ↔
      ⟨r, i⟩ ∈ (⟨l.fresh, id⟩ :: l.order : List Element)) ∧
    ∀ e ∈ (⟨l.fresh, id⟩ :: l.order : List Element), e.ref < l.fresh + 1 := by
  refine ⟨nodup_cons.mpr ⟨fun hin => ?_, h.refs⟩, nodup_cons.mpr ⟨hnew, h.distinct⟩,
    fun i r => ?_, fun e he => ?_⟩
  · obtain ⟨e, he, href⟩ := mem_map.mp hin
    exact (h.fresh e he).ne href
  · by_cases hid : i = id
    · subst hid
      have hold : ⟨r, i⟩ ∉ l.order := fun hin => hnew (mem_map.mpr ⟨_, hin, rfl⟩)
      simp [hold, eq_comm]
    · rw [Function.update_of_ne hid, h.items i r]
      simp [hid]
  · rcases mem_cons.mp he with rfl | he
    · exact Nat.lt_succ_self _
    · exact (h.fresh e he).trans (Nat.lt_succ_self _)

theorem Wf.evict {order : List Element} {items : Bytes → Option Nat} {oldest : Element}
    (hrefs : ((order ++ [oldest]).map Element.ref).Nodup)
    (hdistinct : ((order ++ [oldest]).map Element.value).Nodup)
    (hitems : ∀ i r, items i = some r ↔ ⟨r, i⟩ ∈ order ++ [oldest]) :
    remove (order ++ [oldest]) oldest.ref = order ∧
      ∀ i r, Function.update items oldest.value none i = some r ↔ ⟨r, i⟩ ∈ order := by
  rw [map_append, map_cons, nodup_middle, nodup_cons] at hrefs hdistinct
  simp only [map_nil, append_nil] at hrefs hdistinct
  constructor
  · have hothers : ∀ e ∈ order, e.ref ≠ oldest.ref :=
      fun e he heq => hrefs.1 (mem_map.mpr ⟨e, he, heq⟩)
    unfold remove
    rw [filter_append, filter_ref hothers]
    simp
  · intro i r
    by_cases hi : i = oldest.value
    · subst hi
      have hnot : ⟨r, oldest.value⟩ ∉ order :=
        fun hin => hdistinct.1 (mem_map.mpr ⟨_, hin, rfl⟩)
      simp [hnot]
    · rw [Function.update_of_ne hi, hitems i r]
      have hne : (⟨r, i⟩ : Element) ≠ oldest := fun heq => hi (congrArg Element.value heq)
      simp [hne]

theorem Wf.add (h : l.Wf) (id : Bytes) :
    (l.add id).Wf ∧ (l.add id).size = l.size ∧ (l.add id).ids = touch l.size l.ids id := by
  unfold Fields.add
  cases hitem : l.items id with
  | some ref =>
    obtain ⟨hwf, hids⟩ := h.refresh hitem
    exact ⟨hwf, rfl, hids⟩
  | none =>
    have hnew := h.items_none.mp hitem
    obtain ⟨hrefs, hdistinct, hitems, hfresh⟩ := h.push hnew
    have hle := h.bounded
    rw [touch_of_not_mem hnew]
    have hids : id :: l.ids = (⟨l.fresh, id⟩ :: l.order : List Element).map Element.value := rfl
    have hcons : (⟨l.fresh, id⟩ :: l.order : List Element).length = l.order.length + 1 := rfl
    rw [hids]
    dsimp only
    have hne : (⟨l.fresh, id⟩ :: l.order : List Element) ≠ [] := cons_ne_nil _ _
    generalize (⟨l.fresh, id⟩ :: l.order : List Element) = order at *
    split_ifs with hfull
    · -- the list was full: its last element goes
      rw [List.getLast?_eq_some_getLast hne]
      dsimp only
      have hsplit := dropLast_append_getLast hne
      generalize order.getLast hne = oldest at hsplit ⊢
      generalize order.dropLast = rest at hsplit
      subst hsplit
      obtain ⟨hremove, hitems'⟩ := Wf.evict hrefs hdistinct hitems
      rw [length_append, length_singleton] at hcons hfull
      have hrest : rest.length = l.size := by omega
      rw [hremove]
      rw [map_append] at hrefs hdistinct
      refine ⟨⟨hrefs.of_append_left, hdistinct.of_append_left, hitems', fun e he => ?_, hrest.le⟩,
        rfl, ?_⟩
      · exact hfresh e (mem_append_left _ he)
      · rw [map_append, List.take_left' (by rw [length_map, hrest])]
        rfl
    · have hshort : order.length ≤ l.size := not_lt.mp hfull
      refine ⟨⟨hrefs, hdistinct, hitems, hfresh, hshort⟩, rfl, ?_⟩
      rw [take_of_length_le (by rwa [length_map])]
      rfl

end Fields

/-- `lru`: its fields, which agree with one another. -/
structure Lru extends Fields where
  wf : toFields.Wf

namespace Lru

def newLRU (size : Nat) : Lru where
  size := size
  order := []
  items := fun _ => none
  fresh := 0
  wf := by constructor <;> simp [Fields.ids]

def contains (l : Lru) (id : Bytes) : Bool × Lru :=
  ((l.toFields.contains id).1, ⟨(l.toFields.contains id).2, (l.wf.contains id).1⟩)

def add (l : Lru) (id : Bytes) : Lru := ⟨l.toFields.add id, (l.wf.add id).1⟩

end Lru

end GolangBasics.Worker
