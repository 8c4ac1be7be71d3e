import GolangBasics.Tasks.Store.Store
import Mathlib.Data.List.Nodup

/-! What holds of the committed tables: the rows of `tasks` are where the history has brought
the tasks, the outbox tells that history, and a key belongs to a task that exists. -/
namespace GolangBasics.Tasks.Store
open Conc List Option

def entriesOf (id : String) (history : List Entry) : List Entry := history.filter fun e => e.id = id

structure Sound (t : Tables) : Prop where
  life : ∀ id, ∃ l, Lives (entriesOf id t.history) l ∧ rowOf id t.tasks = l.row
  events : t.outbox.map (fun o => (o.event, o.tx)) = t.history.map fun e => (e.event, e.tx)
  ordered : t.outbox.Pairwise fun a b => a.event.aggregateID = b.event.aggregateID → a.id < b.id
  keyed : (t.keys.map KeyRow.key).Nodup
  owners : ∀ k ∈ t.keys, (rowOf k.taskID t.tasks).isSome

def Entry.Fits (t : Tables) : Entry → Prop
  | created r _ => r.version = 1 ∧ entriesOf r.id t.history = []
  | updated r patch expect _ => ∃ r₀, rowOf r.id t.tasks = some r₀ ∧ r = bump patch r₀ ∧
      ∀ v, expect = some v → r₀.version = v
  | deleted id version expect _ => ∃ r₀, rowOf id t.tasks = some r₀ ∧ version = r₀.version ∧
      ∀ v, expect = some v → r₀.version = v

variable {t : Tables} {e : Entry} {id : String} {tasks : List Task} {history : List Entry}

theorem rowOf_id {r : Task} (h : rowOf id tasks = some r) : r.id = id := by
  simpa using List.find?_some h

theorem entriesOf_snoc_self : entriesOf e.id (history ++ [e]) = entriesOf e.id history ++ [e] := by
  simp [entriesOf]

theorem entriesOf_snoc_of_ne (h : e.id ≠ id) :
    entriesOf id (history ++ [e]) = entriesOf id history := by
  simp [entriesOf, h]

theorem rowOf_created (r : Task) (tx : Nat) (id : String) :
    rowOf id ((Entry.created r tx).applyTasks tasks) =
      (rowOf id tasks).or (if r.id = id then some r else none) := by
  by_cases h : r.id = id <;> simp [rowOf, Entry.applyTasks, List.find?_append, h]

theorem rowOf_updated (r : Task) (patch : Patch) (expect : Option Int) (tx : Nat) (id : String) :
    rowOf id ((Entry.updated r patch expect tx).applyTasks tasks) =
      if r.id = id then (rowOf id tasks).map fun _ => r else rowOf id tasks := by
  unfold rowOf Entry.applyTasks
  induction tasks with
  | nil => simp
  | cons x tasks ih =>
    by_cases hx : x.id = id
    · subst hx
      by_cases hr : x.id = r.id
      · simp [hr]
      · simp [hr, Ne.symm hr]
    · have hcons : ((if x.id = r.id then r else x).id = id) ↔ False := by
        split_ifs with hr
        · simp [← hr, hx]
        · simp [hx]
      simpa [List.find?_cons, hcons, hx] using ih

theorem rowOf_deleted (id' : String) (version : Int) (expect : Option Int) (tx : Nat)
    (id : String) :
    rowOf id ((Entry.deleted id' version expect tx).applyTasks tasks) =
      if id' = id then none else rowOf id tasks := by
  unfold rowOf Entry.applyTasks
  rw [List.find?_filter]
  split_ifs with h
  · simp [h]
  · congr 1
    funext r
    by_cases hr : r.id = id
    · simp [hr, Ne.symm h]
    · simp [hr]

theorem rowOf_applyTasks_of_ne (h : e.id ≠ id) :
    rowOf id (e.applyTasks tasks) = rowOf id tasks := by
  cases e with
  | created r _ =>
    have hr : r.id ≠ id := h
    simp [rowOf_created, hr]
  | updated r _ _ _ =>
    have hr : r.id ≠ id := h
    simp [rowOf_updated, hr]
  | deleted id' _ _ _ =>
    have hid : id' ≠ id := h
    simp [rowOf_deleted, hid]

theorem Sound.lives_of_row (h : Sound t) {r : Task} (hr : rowOf id t.tasks = some r) :
    Lives (entriesOf id t.history) (.live r) := by
  obtain ⟨l, hl, hrow⟩ := h.life id
  have hlive := Life.eq_live (hrow.symm.trans hr)
  exact hlive ▸ hl

/-- A fitting change takes the task to its next state, and the table along. -/
theorem Entry.Fits.lives (hfits : e.Fits t) (h : Sound t) :
    ∃ l, Lives (entriesOf e.id t.history ++ [e]) l ∧ rowOf e.id (e.applyTasks t.tasks) = l.row := by
  cases e with
  | created r tx =>
    obtain ⟨hv, hnil⟩ := hfits
    obtain ⟨l, hl, hrow⟩ := h.life r.id
    rw [hl.eq_unborn hnil] at hrow
    refine ⟨.live r, ?_, ?_⟩
    · simp only [Entry.id, hnil]
      exact .created hv
    · simp [Entry.id, rowOf_created, hrow, Life.row]
  | updated r patch expect tx =>
    obtain ⟨r₀, hr₀, rfl, hexpect⟩ := hfits
    refine ⟨.live (bump patch r₀), .updated (h.lives_of_row hr₀) hexpect, ?_⟩
    simp [Entry.id, rowOf_updated, hr₀, Life.row]
  | deleted id version expect tx =>
    obtain ⟨r₀, hr₀, rfl, hexpect⟩ := hfits
    obtain rfl := rowOf_id hr₀
    refine ⟨.dead r₀, .deleted (h.lives_of_row hr₀) hexpect, ?_⟩
    simp [Entry.id, rowOf_deleted, Life.row]

def transaction (e : Entry) (key : Option KeyRow) (row : OutboxRow) : List Change :=
  .task e :: (key.toList.map .insertKey ++ [.enqueue row])

theorem applyAll_transaction (key : Option KeyRow) (row : OutboxRow) :
    Database.applyAll Change.apply (transaction e key row) t =
      { tasks := e.applyTasks t.tasks
        keys := e.applyKeys t.keys ++ key.toList
        outbox := t.outbox ++ [row]
        history := t.history ++ [e] } := by
  cases key <;> simp [transaction, Database.applyAll, Change.apply]

theorem Entry.applyKeys_sublist (keys : List KeyRow) : (e.applyKeys keys).Sublist keys := by
  cases e with
  | deleted => exact filter_sublist
  | _ => exact List.Sublist.refl _

theorem Entry.Fits.owners (hfits : e.Fits t) (h : Sound t) {k : KeyRow}
    (hk : k ∈ e.applyKeys t.keys) : (rowOf k.taskID (e.applyTasks t.tasks)).isSome := by
  have hold := h.owners k (e.applyKeys_sublist t.keys |>.subset hk)
  by_cases heq : e.id = k.taskID
  · cases e with
    | created r tx =>
      obtain ⟨l, hl, hrow⟩ := h.life r.id
      rw [hl.eq_unborn hfits.2] at hrow
      have heq : r.id = k.taskID := heq
      simp [← heq, hrow, Life.row] at hold
    | updated r patch expect tx =>
      have heq : r.id = k.taskID := heq
      simpa [rowOf_updated, heq] using hold
    | deleted id version expect tx =>
      have heq : id = k.taskID := heq
      simp [applyKeys, heq] at hk
  · rw [rowOf_applyTasks_of_ne heq]
    exact hold

theorem Sound.commit (h : Sound t) (hfits : e.Fits t) {key : Option KeyRow} {row : OutboxRow}
    (hevent : row.event = e.event) (htx : row.tx = e.tx)
    (hid : ∀ o ∈ t.outbox, o.event.aggregateID = row.event.aggregateID → o.id < row.id)
    (hkey : ∀ k, key = some k → (∀ k' ∈ t.keys, k'.key ≠ k.key) ∧
      ∃ r tx, e = .created r tx ∧ r.id = k.taskID) :
    Sound (Database.applyAll Change.apply (transaction e key row) t) := by
  rw [applyAll_transaction]
  constructor
  · intro id
    by_cases heq : e.id = id
    · subst heq
      rw [entriesOf_snoc_self]
      exact hfits.lives h
    · rw [entriesOf_snoc_of_ne heq, rowOf_applyTasks_of_ne heq]
      exact h.life id
  · simp [h.events, hevent, htx]
  · rw [pairwise_append]
    refine ⟨h.ordered, by simp, fun o ho o' ho' => ?_⟩
    obtain rfl := mem_singleton.mp ho'
    exact hid o ho
  · have hsub := (e.applyKeys_sublist t.keys).map KeyRow.key
    rw [map_append, nodup_append]
    refine ⟨h.keyed.sublist hsub, ?_, ?_⟩
    · cases key <;> simp
    · intro x hx y hy hxy
      obtain ⟨k', hk', rfl⟩ := List.mem_map.mp hx
      obtain ⟨k, hk, rfl⟩ := List.mem_map.mp hy
      have hk : key = some k := by simpa using hk
      exact (hkey k hk).1 k' (e.applyKeys_sublist t.keys |>.subset hk') hxy
  · intro k hk
    rcases mem_append.mp hk with hk | hk
    · exact hfits.owners h hk
    · obtain ⟨-, r, tx, rfl, hr⟩ := hkey k (by simpa using hk)
      simp [rowOf_created, hr]

theorem Entry.Fits.frame {e' : Entry} (h : e.Fits t) (hne : e'.id ≠ e.id)
    (key : Option KeyRow) (row : OutboxRow) :
    e.Fits (Database.applyAll Change.apply (transaction e' key row) t) := by
  rw [applyAll_transaction]
  cases e with
  | created r tx => exact ⟨h.1, (entriesOf_snoc_of_ne hne).trans h.2⟩
  | updated r patch expect tx =>
    obtain ⟨r₀, hr₀, hrest⟩ := h
    exact ⟨r₀, (rowOf_applyTasks_of_ne hne).trans hr₀, hrest⟩
  | deleted id version expect tx =>
    obtain ⟨r₀, hr₀, hrest⟩ := h
    exact ⟨r₀, (rowOf_applyTasks_of_ne hne).trans hr₀, hrest⟩

def Gone (id : String) (t : Tables) : Prop := entriesOf id t.history ≠ [] ∧ rowOf id t.tasks = none

/-- Nothing fits after the deletion of the task. -/
theorem Gone.ne_of_fits (h : Gone id t) (hfits : e.Fits t) : e.id ≠ id := by
  rintro rfl
  cases e with
  | created => exact h.1 hfits.2
  | updated =>
    obtain ⟨r₀, hr₀, -⟩ := hfits
    cases h.2.symm.trans hr₀
  | deleted =>
    obtain ⟨r₀, hr₀, -⟩ := hfits
    cases h.2.symm.trans hr₀

theorem Gone.commit (h : Gone id t) (hfits : e.Fits t) (key : Option KeyRow) (row : OutboxRow) :
    Gone id (Database.applyAll Change.apply (transaction e key row) t) := by
  have hne := h.ne_of_fits hfits
  rw [applyAll_transaction]
  exact ⟨(entriesOf_snoc_of_ne hne).symm ▸ h.1, (rowOf_applyTasks_of_ne hne).trans h.2⟩

theorem rowOf_applyTasks_eq_none (hfits : e.Fits t) (h : (rowOf id t.tasks).isSome) :
    rowOf id (e.applyTasks t.tasks) = none ↔ Change.deletes id (.task e) := by
  cases e with
  | created r tx =>
    obtain ⟨r₀, hr₀⟩ := isSome_iff_exists.mp h
    simp [rowOf_created, hr₀, Change.deletes]
  | updated r patch expect tx =>
    obtain ⟨r₀, hr₀⟩ := isSome_iff_exists.mp h
    simp only [rowOf_updated, Change.deletes]
    split_ifs <;> simp [hr₀]
  | deleted id' version expect tx =>
    obtain ⟨r₀, hr₀⟩ := isSome_iff_exists.mp h
    simp only [rowOf_deleted, Change.deletes]
    split_ifs with heq <;> simp [hr₀, heq]

theorem transaction_deletes (key : Option KeyRow) (row : OutboxRow) :
    (transaction e key row).any (Change.deletes id) = Change.deletes id (.task e) := by
  cases key <;> simp [transaction, Change.deletes]

end GolangBasics.Tasks.Store
