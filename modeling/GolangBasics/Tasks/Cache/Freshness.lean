import GolangBasics.Tasks.Cache.Calls

/-! What the cache holds and what reads through it return. The entry is never stale once the
writers have finished. A read may be: it can join a load that has read an older row. -/
namespace GolangBasics.Tasks.Cache
open Conc

variable {cfg : Config} {c : Conc.Config Nat Req Rep State Call Result}

/-- In every state of every run, a cached value is the row of the database, or a writer of
something newer has its tombstone still to write. Once every writer that committed has
returned success, a cached value is the row. -/
theorem cached_current_or_owed (hc : (calls cfg).Reachable {} c) :
    (∀ t, c.shared.cached.slot = .value t → c.shared.life.row = some t ∨
      ∃ w ∈ c.shared.cached.writers, w.change.newer t = true ∧ w.expires = none) ∧
    ((∀ w ∈ c.shared.cached.writers,
        ∃ call res, c.proc w.proc = some (call, .ret res) ∧ res.err = none) →
      ∀ t, c.shared.cached.slot = .value t → c.shared.life.row = some t) := by
  have hholds := holds_of_run hc
  have hinv : Inv cfg c.shared := hholds.1
  refine ⟨fun t hslot => hinv.sound.current_or_owed hslot, fun hdone t hslot => ?_⟩
  rcases hinv.sound.current_or_owed hslot with hrow | ⟨w, hw, -, howed⟩
  · exact hrow
  · obtain ⟨call, res, hp, herr⟩ := hdone w hw
    have hsettled := (hholds.returned hp herr).1
    exact absurd howed (hsettled.1 w hw rfl)

def exampleConfig : Config := ⟨"t1", 5, by decide⟩

/-- A load stalls while two updates commit and write their tombstones in the other order. Its
fill is refused, and after the tombstone the next read fills the key. -/
def overlap : List (Conc.Event Nat Choice Env Call) :=
  [.start 0 (.create "a"), .step 0 .ok, .step 0 .ok, .env .expire,
    .start 1 (.get 0), .step 1 .ok, .step 1 .ok, .start 2 (.flight 0), .step 2 .ok,
    .start 3 (.update ⟨none, some true⟩ none), .step 3 .ok,
    .start 4 (.update ⟨some "b", none⟩ none), .step 4 .ok, .step 4 .ok, .step 3 .ok,
    .step 2 .ok, .step 2 .ok, .step 1 .ok, .env (.tick 5), .env .expire,
    .start 5 (.get 0), .step 5 .ok, .step 5 .ok, .start 6 (.flight 0), .step 6 .ok, .step 6 .ok,
    .step 6 .ok, .step 5 .ok]

theorem cached_current_or_owed_overlap :
    ∃ c, (calls exampleConfig).run ⟨{}, fun _ => none⟩ overlap = some c ∧
      c.shared.cached.slot = .value ⟨"t1", "b", true, 3, 0⟩ ∧
      c.shared.life.row = some ⟨"t1", "b", true, 3, 0⟩ := by
  obtain ⟨c, hrun, hslot, hwriters, hfour, hthree⟩ :
      ∃ c, (calls exampleConfig).run ⟨{}, fun _ => none⟩ overlap = some c ∧
        c.shared.cached.slot = .value ⟨"t1", "b", true, 3, 0⟩ ∧
        c.shared.cached.writers = [⟨4, .update 3, some 5⟩, ⟨3, .update 2, some 5⟩] ∧
        c.proc 4 = some (.update ⟨some "b", none⟩ none, .ret { task := ⟨"t1", "b", true, 3, 0⟩ }) ∧
        c.proc 3 = some (.update ⟨none, some true⟩ none,
          .ret { task := ⟨"t1", "a", true, 2, 0⟩ }) := ⟨_, rfl, rfl, rfl, rfl, rfl⟩
  refine ⟨c, hrun, hslot, (cached_current_or_owed (Machine.Reachable.init.run hrun)).2 ?_ _ hslot⟩
  intro w hw
  rw [hwriters] at hw
  rcases List.mem_cons.mp hw with rfl | hw
  · exact ⟨_, _, hfour, rfl⟩
  · obtain rfl := List.mem_singleton.mp hw
    exact ⟨_, _, hthree, rfl⟩

theorem Notes.Answered.fresh_iff {n : Notes} {t : Task} (h : n.Answered t) :
    n.Fresh t ↔ ∀ u, n.join = .late u → n.Fresh u := by
  unfold Notes.Answered Notes.Joined at h
  cases hjoin : n.join with
  | none =>
    simp only [hjoin, true_and, or_false] at h
    simp [h]
  | early =>
    simp only [hjoin, reduceCtorEq, false_and, false_or] at h
    simp [h t rfl]
  | late u =>
    simp only [hjoin, reduceCtorEq, false_and, false_or] at h
    obtain rfl := Option.some.inj h
    simp

/-- A read that answers with a task has read all that was complete when it started, exactly
when it did not join a load that had read something older before. -/
theorem get_fresh_iff (hc : (calls cfg).Reachable {} c) {p replica : Nat} {res : Result}
    (hp : c.proc p = some (.get replica, .ret res)) (herr : res.err = none) :
    (∀ x ∈ (c.shared.notes p).done, x.newer res.task = false) ↔
      ∀ t, (c.shared.notes p).join = .late t →
        ∀ x ∈ (c.shared.notes p).done, x.newer t = false := by
  have hreturned := (holds_of_run hc).returned hp herr
  exact (hreturned.2 replica rfl).fresh_iff

theorem get_fresh_iff_overlap :
    ∃ c res, (calls exampleConfig).run ⟨{}, fun _ => none⟩ overlap = some c ∧
      c.proc 5 = some (.get 0, .ret res) ∧
      (c.shared.notes 5).done = [.update 3, .update 2] ∧
      ∀ x ∈ (c.shared.notes 5).done, x.newer res.task = false := by
  obtain ⟨c, hrun, hproc, hdone, hjoin⟩ :
      ∃ c, (calls exampleConfig).run ⟨{}, fun _ => none⟩ overlap = some c ∧
        c.proc 5 = some (.get 0, .ret { task := ⟨"t1", "b", true, 3, 0⟩ }) ∧
        (c.shared.notes 5).done = [.update 3, .update 2] ∧ (c.shared.notes 5).join = .early :=
    ⟨_, rfl, rfl, rfl, rfl⟩
  refine ⟨c, _, hrun, hproc, hdone, ?_⟩
  refine (get_fresh_iff (Machine.Reachable.init.run hrun) hproc rfl).mpr fun t ht => ?_
  rw [hjoin] at ht
  cases ht

/-- A load has read version 1 and stalls before its fill. The task is updated and deleted, and
both invalidations return. A read that starts then joins the load. -/
def staleJoin : List (Conc.Event Nat Choice Env Call) :=
  [.start 0 (.create "a"), .step 0 .ok, .step 0 .ok, .env .expire,
    .start 1 (.get 0), .step 1 .ok, .step 1 .ok, .start 2 (.flight 0), .step 2 .ok,
    .start 3 (.update ⟨none, some true⟩ none), .step 3 .ok, .step 3 .ok,
    .start 4 (.delete none), .step 4 .ok, .step 4 .ok,
    .start 5 (.get 0), .step 5 .ok, .step 5 .ok, .step 2 .ok, .step 2 .ok, .step 5 .ok]

/-- The read returns the task as it was before the update, and after the deletion. -/
theorem get_stale_staleJoin :
    ∃ c, (calls exampleConfig).run ⟨{}, fun _ => none⟩ staleJoin = some c ∧
      (calls exampleConfig).Reachable {} c ∧
      c.proc 5 = some (.get 0, .ret { task := ⟨"t1", "a", false, 1, 0⟩ }) ∧
      (c.shared.notes 5).done = [.delete, .update 2] ∧
      ∀ x ∈ (c.shared.notes 5).done, x.newer ⟨"t1", "a", false, 1, 0⟩ = true := by
  obtain ⟨c, hrun, hproc, hdone⟩ :
      ∃ c, (calls exampleConfig).run ⟨{}, fun _ => none⟩ staleJoin = some c ∧
        c.proc 5 = some (.get 0, .ret { task := ⟨"t1", "a", false, 1, 0⟩ }) ∧
        (c.shared.notes 5).done = [.delete, .update 2] := ⟨_, rfl, rfl, rfl⟩
  refine ⟨c, hrun, Machine.Reachable.init.run hrun, hproc, hdone, fun x hx => ?_⟩
  rw [hdone] at hx
  rcases List.mem_cons.mp hx with rfl | hx
  · rfl
  · obtain rfl := List.mem_singleton.mp hx
    rfl

end GolangBasics.Tasks.Cache
