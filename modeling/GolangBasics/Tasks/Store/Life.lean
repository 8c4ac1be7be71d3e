import GolangBasics.Tasks.Domain
import GolangBasics.Tasks.Outbox.Table
import Mathlib.Data.List.Basic

/-! The life of a task: it is created at version 1, every update takes the next version,
and a deletion ends it. -/
namespace GolangBasics.Tasks.Store
open List Option

/-- The events of `libs/contracts/events`, without the event id. -/
inductive TaskEvent where
  | created (id title : String) (createdAt : Nat) (version : Int)
  | updated (id title : String) (done : Bool) (version : Int)
  | deleted (id : String) (version : Int)
  deriving DecidableEq, Repr

def TaskEvent.aggregateID : TaskEvent → String
  | created id .. | updated id .. | deleted id _ => id

def TaskEvent.type : TaskEvent → Outbox.EventType
  | created .. => .created
  | updated .. => .updated
  | deleted .. => .deleted

def createdEvent (t : Task) : TaskEvent := .created t.id t.title t.createdAt t.version

def updatedEvent (t : Task) : TaskEvent := .updated t.id t.title t.done t.version

/-- A committed change of a task: its new row or, of a deletion, the version that went. An
update and a deletion carry what the call asked for, and each its transaction. -/
inductive Entry where
  | created (t : Task) (tx : Nat)
  | updated (t : Task) (patch : Patch) (expect : Option Int) (tx : Nat)
  | deleted (id : String) (version : Int) (expect : Option Int) (tx : Nat)

namespace Entry

def id : Entry → String
  | created t _ | updated t .. => t.id
  | deleted id .. => id

def tx : Entry → Nat
  | created _ tx | updated _ _ _ tx | deleted _ _ _ tx => tx

def row : Entry → Option Task
  | created t _ | updated t .. => some t
  | deleted .. => none

def patch : Entry → Option Patch
  | updated _ patch _ _ => some patch
  | _ => none

def expect : Entry → Option Int
  | created .. => none
  | updated _ _ expect _ | deleted _ _ expect _ => expect

def event : Entry → TaskEvent
  | created t _ => createdEvent t
  | updated t .. => updatedEvent t
  | deleted id version .. => .deleted id version

theorem event_aggregateID (e : Entry) : e.event.aggregateID = e.id := by cases e <;> rfl

end Entry

inductive Life where
  | unborn
  | live (t : Task)
  | dead (t : Task)

def Life.row : Life → Option Task
  | live t => some t
  | _ => none

theorem Life.eq_live {l : Life} {t : Task} (h : l.row = some t) : l = live t := by
  cases l with
  | live u => exact congrArg live (some.inj h)
  | _ => simp [row] at h

def bump (patch : Patch) (r : Task) : Task :=
  { patch.apply r with version := r.version + 1 }

/-- The changes of one task, oldest first, and the state they bring it to. A change that
names a version applies to that version only. -/
inductive Lives : List Entry → Life → Prop where
  | unborn : Lives [] .unborn
  | created {t tx} (h : t.version = 1) : Lives [.created t tx] (.live t)
  | updated {es r patch expect tx} (h : Lives es (.live r))
      (hv : ∀ v, expect = some v → r.version = v) :
      Lives (es ++ [.updated (bump patch r) patch expect tx]) (.live (bump patch r))
  | deleted {es r expect tx} (h : Lives es (.live r))
      (hv : ∀ v, expect = some v → r.version = v) :
      Lives (es ++ [.deleted r.id r.version expect tx]) (.dead r)

inductive Life.Step : Life → Life → Prop where
  | created {t} (h : t.version = 1) : Step .unborn (.live t)
  | updated {r patch} : Step (.live r) (.live (bump patch r))
  | deleted {r} : Step (.live r) (.dead r)

def rowsOf (es : List Entry) : List Task := es.filterMap Entry.row

def patchesOf (es : List Entry) : List Patch := es.filterMap Entry.patch

/-- The events of a task with these rows. -/
def story (rows : List Task) (deleted : Bool) : List TaskEvent :=
  (rows.head?.map createdEvent).toList ++ rows.tail.map updatedEvent ++
    if deleted then (rows.getLast?.map fun t => .deleted t.id t.version).toList else []

def Life.last : Life → Option Task
  | unborn => none
  | live t | dead t => some t

def Life.isDead : Life → Bool
  | dead _ => true
  | _ => false

variable {es : List Entry} {l : Life}

@[simp] theorem rowsOf_snoc (e : Entry) : rowsOf (es ++ [e]) = rowsOf es ++ e.row.toList := by
  cases e <;> simp [rowsOf, Entry.row]

@[simp] theorem patchesOf_snoc (e : Entry) :
    patchesOf (es ++ [e]) = patchesOf es ++ e.patch.toList := by
  cases e <;> simp [patchesOf, Entry.patch]

theorem Lives.eq_unborn (h : Lives es l) (hnil : es = []) : l = .unborn := by
  cases h with
  | unborn => rfl
  | created => simp at hnil
  | updated => simp at hnil
  | deleted => simp at hnil

theorem Lives.rowsOf_getLast (h : Lives es l) : (rowsOf es).getLast? = l.last := by
  induction h with
  | unborn => rfl
  | created => rfl
  | updated => simp [Entry.row, Life.last]
  | deleted _ _ ih => simpa [Entry.row, Life.last] using ih

theorem Lives.isDead_eq (h : Lives es l) : l.isDead = es.getLast?.any (·.row.isNone) := by
  cases h <;> simp [Life.isDead, Entry.row]

/-- The changes determine the state of the task. -/
theorem Lives.unique {l' : Life} (h : Lives es l) (h' : Lives es l') : l = l' := by
  have hlast : l.last = l'.last := h.rowsOf_getLast.symm.trans h'.rowsOf_getLast
  have hdead : l.isDead = l'.isDead := h.isDead_eq.trans h'.isDead_eq.symm
  cases l <;> cases l' <;> simp_all [Life.last, Life.isDead]

theorem Lives.step {l' : Life} {e : Entry} (h : Lives es l) (h' : Lives (es ++ [e]) l') :
    Life.Step l l' := by
  generalize hes : es ++ [e] = es' at h'
  cases h' with
  | unborn => simp at hes
  | created hv =>
    obtain ⟨rfl, -⟩ := List.append_inj' (hes.trans (nil_append _).symm) rfl
    obtain rfl := h.eq_unborn rfl
    exact .created hv
  | updated h' =>
    obtain ⟨rfl, -⟩ := List.append_inj' hes rfl
    rw [h.unique h']
    exact .updated
  | deleted h' =>
    obtain ⟨rfl, -⟩ := List.append_inj' hes rfl
    rw [h.unique h']
    exact .deleted

theorem Lives.row_of_snoc {e : Entry} {t : Task} (h : Lives (es ++ [e]) l) (he : e.row = some t) :
    l.row = some t := by
  have hlast : l.last = some t := by
    rw [← h.rowsOf_getLast, rowsOf_snoc, he]
    simp
  have halive : l.isDead = false := by simp [h.isDead_eq, he]
  cases l with
  | unborn => cases hlast
  | live u => exact hlast
  | dead u => cases halive

theorem Lives.rowsOf_ne_nil (h : Lives es l) {r : Task} (hr : l.last = some r) :
    rowsOf es ≠ [] := by
  intro hnil
  have hlast := h.rowsOf_getLast
  simp [hnil, hr] at hlast

theorem Lives.story (h : Lives es l) : es.map Entry.event = story (rowsOf es) l.isDead := by
  induction h with
  | unborn => rfl
  | created => rfl
  | @updated es r patch expect tx h _ ih =>
    obtain ⟨t, ts, hrows⟩ := exists_cons_of_ne_nil (h.rowsOf_ne_nil rfl)
    simp [Store.story, hrows, ih, Life.isDead, Entry.row, Entry.event]
  | @deleted es r expect tx h _ ih =>
    have hlast := h.rowsOf_getLast
    simp [Store.story, ih, hlast, Life.isDead, Life.last, Entry.row, Entry.event]

theorem Lives.version_last (h : Lives es l) {r : Task} (hr : l.last = some r) :
    r.version = (rowsOf es).length := by
  induction h generalizing r with
  | unborn => simp [Life.last] at hr
  | created h =>
    obtain rfl := some.inj hr
    simpa [rowsOf, Entry.row] using h
  | updated h _ ih =>
    obtain rfl := some.inj hr
    have hprev := ih rfl
    simp [bump, Entry.row, hprev]
  | deleted _ _ ih =>
    have hprev := ih hr
    simpa [Entry.row] using hprev

/-- The rows have the versions 1, 2, 3 and so on. -/
theorem Lives.versions (h : Lives es l) :
    (rowsOf es).map Task.version =
      (List.range (rowsOf es).length).map fun i : Nat => (i : Int) + 1 := by
  induction h with
  | unborn => rfl
  | created h => simp [rowsOf, Entry.row, h]
  | updated h _ ih =>
    have hr := h.version_last rfl
    simp [Entry.row, ih, range_succ, bump, hr]
  | deleted _ _ ih => simpa [Entry.row] using ih

theorem Lives.head_created (h : Lives es l) (hne : es ≠ []) :
    ∃ t tx, es.head? = some (.created t tx) ∧ (rowsOf es).head? = some t := by
  have hsnoc : ∀ {es : List Entry} {e : Entry},
      (∃ t tx, es.head? = some (.created t tx) ∧ (rowsOf es).head? = some t) →
      ∃ t tx, (es ++ [e]).head? = some (.created t tx) ∧ (rowsOf (es ++ [e])).head? = some t := by
    rintro es e ⟨t, tx, hhead, hrows⟩
    exact ⟨t, tx, by simp [hhead], by simp [hrows]⟩
  induction h with
  | unborn => exact absurd rfl hne
  | created => exact ⟨_, _, rfl, rfl⟩
  | updated h _ ih => exact hsnoc (ih fun hnil => by cases h.eq_unborn hnil)
  | deleted h _ ih => exact hsnoc (ih fun hnil => by cases h.eq_unborn hnil)

/-- The last row is the first one with all patches applied in turn, at its own version. -/
theorem Lives.fold (h : Lives es l) {t₀ r : Task} (hhead : (rowsOf es).head? = some t₀)
    (hlast : l.last = some r) :
    r = { (patchesOf es).foldl (fun t p => p.apply t) t₀ with version := r.version } := by
  induction h generalizing r with
  | unborn => simp [Life.last] at hlast
  | created =>
    obtain rfl := some.inj hlast
    obtain rfl : _ = t₀ := by simpa [rowsOf, Entry.row] using hhead
    rfl
  | @updated es r' patch expect tx h _ ih =>
    obtain rfl := some.inj hlast
    rw [rowsOf_snoc, List.head?_append_of_ne_nil _ (h.rowsOf_ne_nil rfl)] at hhead
    have hprev := ih hhead rfl
    have happly : ∀ (t : Task) (v : Int), patch.apply { t with version := v } =
        { patch.apply t with version := v } := by
      intro t v
      unfold Patch.apply
      cases patch.title <;> cases patch.done <;> rfl
    rw [patchesOf_snoc, Entry.patch, toList_some, foldl_append]
    conv_lhs => rw [bump, hprev, happly]
    rfl
  | @deleted es r' expect tx h _ ih =>
    have hhead' : (rowsOf es).head? = some t₀ := by simpa [Entry.row] using hhead
    simpa [Entry.patch] using ih hhead' hlast

theorem Lives.length_patchesOf (h : Lives es l) (hl : l.last ≠ none) :
    (patchesOf es).length + 1 = (rowsOf es).length := by
  induction h with
  | unborn => simp [Life.last] at hl
  | created => rfl
  | updated h _ ih =>
    have hprev := ih (by simp [Life.last])
    simp [Entry.row, Entry.patch]
    omega
  | deleted h _ ih =>
    have hprev := ih (by simp [Life.last])
    simpa [Entry.row, Entry.patch] using hprev

/-- A version that a change named is behind a live task. -/
theorem Lives.expect_lt (h : Lives es l) {r : Task} (hl : l = .live r) {e : Entry} (he : e ∈ es)
    {v : Int} (hv : e.expect = some v) : v < r.version := by
  induction h generalizing r with
  | unborn => simp at he
  | created =>
    obtain rfl := mem_singleton.mp he
    simp [Entry.expect] at hv
  | updated h hver ih =>
    obtain rfl := Life.live.inj hl
    rcases mem_append.mp he with he | he
    · have hlt := ih rfl he
      simp only [bump]
      omega
    · obtain rfl := mem_singleton.mp he
      have heq := hver v hv
      simp only [bump]
      omega
  | deleted => cases hl

theorem Lives.expect_unique (h : Lives es l) :
    es.Pairwise fun a b => ∀ v, a.expect = some v → b.expect ≠ some v := by
  have hsnoc : ∀ {es : List Entry} {r : Task} {e : Entry}, Lives es (.live r) →
      (∀ v, e.expect = some v → r.version = v) →
      es.Pairwise (fun a b => ∀ v, a.expect = some v → b.expect ≠ some v) →
      (es ++ [e]).Pairwise fun a b => ∀ v, a.expect = some v → b.expect ≠ some v := by
    intro es r e h hver ih
    rw [pairwise_append]
    refine ⟨ih, by simp, fun a ha b hb v hav hbv => ?_⟩
    obtain rfl := mem_singleton.mp hb
    have hlt := h.expect_lt rfl ha hav
    have heq := hver v hbv
    omega
  induction h with
  | unborn => exact List.Pairwise.nil
  | created => exact pairwise_singleton _ _
  | updated h hver ih => exact hsnoc h hver ih
  | deleted h hver ih => exact hsnoc h hver ih

/-- A change that names a version finds the task at that version. -/
theorem Lives.expect_eq_version (h : Lives es l) {before after : List Entry} {e : Entry}
    (hes : es = before ++ e :: after) {v : Int} (hv : e.expect = some v) :
    ∃ r, (rowsOf before).getLast? = some r ∧ r.version = v := by
  have hsnoc : ∀ {es after : List Entry} {r : Task} {x : Entry}, Lives es (.live r) →
      es ++ [x] = before ++ e :: after → (∀ v, x.expect = some v → r.version = v) →
      (∀ after, es = before ++ e :: after →
        ∃ r, (rowsOf before).getLast? = some r ∧ r.version = v) →
      ∃ r, (rowsOf before).getLast? = some r ∧ r.version = v := by
    intro es after r x h hes hver ih
    rcases eq_nil_or_concat after with rfl | ⟨after', y, rfl⟩
    · obtain ⟨rfl, hx⟩ := List.append_inj' hes rfl
      obtain rfl := singleton_inj.mp hx
      exact ⟨r, h.rowsOf_getLast, hver v hv⟩
    · have hes' : es ++ [x] = (before ++ e :: after') ++ [y] := by simpa using hes
      exact ih after' (List.append_inj' hes' rfl).1
  induction h generalizing after with
  | unborn => simp at hes
  | created =>
    have hmem : e ∈ before ++ e :: after := by simp
    rw [← hes] at hmem
    obtain rfl := mem_singleton.mp hmem
    simp [Entry.expect] at hv
  | updated h hver ih => exact hsnoc h hes hver fun _ heq => ih heq
  | deleted h hver ih => exact hsnoc h hes hver fun _ heq => ih heq

end GolangBasics.Tasks.Store
