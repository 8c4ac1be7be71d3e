import GolangBasics.Tasks.Store.History

/-! Creates that carry an idempotency key. A create that finds its key taken rolls back and
reads the owner's task in a later statement; it fails exactly when the task is deleted in
between. -/
namespace GolangBasics.Tasks.Store
open Conc List

variable {c : Conc.Config Nat Req Rep State Call Result} {p : Nat} {s : State}

theorem Inv.history_of_tx (hs : Inv s) {e : Entry} (he : e ∈ s.db.tables.history) :
    s.db.tables.history.filter (fun x => x.tx = e.tx) = [e] := by
  have hnodup : (s.db.tables.history.filter fun x => x.tx = e.tx).Nodup :=
    (List.Nodup.of_map _ hs.recorded.once).filter _
  have hall : ∀ x ∈ s.db.tables.history.filter (fun x => x.tx = e.tx), x = e := by
    intro x hx
    obtain ⟨hx, htx⟩ := mem_filter.mp hx
    exact inj_on_of_nodup_map hs.recorded.once hx he (of_decide_eq_true htx)
  have hmem : e ∈ s.db.tables.history.filter (fun x => x.tx = e.tx) := by simp [he]
  generalize s.db.tables.history.filter (fun x => x.tx = e.tx) = l at hnodup hall hmem
  match l with
  | [] => simp at hmem
  | [x] => rw [hall x (by simp)]
  | x :: y :: l =>
    have hx := hall x (by simp)
    have hy := hall y (by simp)
    simp [hx, hy] at hnodup

theorem Sound.events_of_tx {t : Tables} (h : Sound t) (p : Nat) :
    (t.outbox.filter fun o => o.tx = p).map OutboxRow.event =
      (t.history.filter fun e => e.tx = p).map Entry.event := by
  have hfilter := congrArg (List.filter fun x : TaskEvent × Nat => decide (x.2 = p)) h.events
  rw [filter_map, filter_map] at hfilter
  have hfst := congrArg (List.map Prod.fst) hfilter
  simpa [map_map, Function.comp_def] using hfst

/-- What a create that reports success has done: one task and its event, or nothing. -/
def Succeeds (p : Nat) (k : IdempotencyKey) (res : Result) (s : State) : Prop :=
  res.replayed = false ∧
      s.db.tables.history.filter (fun e => e.tx = p) = [.created res.task p] ∧
      (s.db.tables.outbox.filter fun o => o.tx = p).map OutboxRow.event =
        [createdEvent res.task] ∨
    res.replayed = true ∧ Owned s k.key k.hash res.task.id ∧
      (∀ e ∈ s.db.tables.history, e.tx ≠ p) ∧ ∀ o ∈ s.db.tables.outbox, o.tx ≠ p

theorem succeeds_new (hs : Inv s) {id title ev : String} {k : IdempotencyKey} {res : Result}
    (hcall : (s.notes p).call = some (.create id title (some k) ev)) {e : Entry}
    (he : e ∈ s.db.tables.history) (htx : e.tx = p) (hrow : e.row = some res.task)
    (hres : res.replayed = false) : Succeeds p k res s := by
  have hasked := hs.recorded.asked e he
  rw [htx, hcall] at hasked
  cases e with
  | created t tx =>
    obtain rfl : t = res.task := Option.some.inj hrow
    obtain rfl : tx = p := htx
    have hhistory := hs.history_of_tx he
    refine .inl ⟨hres, hhistory, ?_⟩
    rw [hs.sound.events_of_tx]
    exact congrArg (List.map Entry.event) hhistory
  | updated =>
    obtain ⟨_, h⟩ := hasked
    cases h
  | deleted =>
    obtain ⟨_, h⟩ := hasked
    cases h

/-- Creates with one key. At any time a key belongs to at most one task, which is there. A
create that met no failure, and whose key has been used with its hash only, succeeds exactly
when the task that owns the key was not deleted between the replay decision and the read. -/
theorem create_succeeds_iff (hc : calls.Reachable State.init c) :
    (∀ k ∈ c.shared.db.tables.keys, ∀ k' ∈ c.shared.db.tables.keys, k.key = k'.key → k = k') ∧
    (∀ k ∈ c.shared.db.tables.keys, (rowOf k.taskID c.shared.db.tables.tasks).isSome) ∧
    ∀ p id title k ev res, c.proc p = some (.create id title (some k) ev, .ret res) →
      (∀ t q id' title' k' ev', .created t q ∈ c.shared.db.tables.history →
        (c.shared.notes q).call = some (.create id' title' (some k') ev') →
        k'.key = k.key → k'.hash = k.hash) →
      (c.shared.notes p).faulted = false →
      (res.err = none ↔ ∀ id', (c.shared.notes p).replay ≠ .read id' true) ∧
      (res.err = none → Succeeds p k res c.shared) := by
  have hs := (holds_of_run hc).1
  refine ⟨fun k hk k' hk' heq => inj_on_of_nodup_map hs.sound.keyed hk hk' heq,
    hs.sound.owners, fun p id title k ev res hp hhash hfault => ?_⟩
  have hcall := call_of_proc hc hp
  have hout := (holds_of_run hc).returned hp
  obtain ⟨task, replayed, count, err⟩ := res
  simp only [Returned] at hout
  cases hout with
  | new hun he htx hrow =>
    have hun : (c.shared.notes p).replay = .none := hun
    exact ⟨by simp [hun], fun _ => succeeds_new hs hcall he htx hrow rfl⟩
  | replayed hu hread hk ho =>
    cases hk
    exact ⟨by simp [hread], fun _ => .inr ⟨rfl, ho, hu.tx_ne hs⟩⟩
  | reused hu hk hne ho =>
    cases hk
    obtain ⟨t, q, title', ev', hmem, -, hq⟩ := ho
    exact absurd (hhash t q _ _ _ _ hmem hq rfl) hne
  | lost hu hread hk ho => exact ⟨by simp [hread], by simp⟩
  | failed hf hu => simp [hf.2] at hfault

def replayedCreate : List (Conc.Event Nat Choice Env Call) :=
  alone 0 (.create "t1" "a" (some ⟨"k", "h"⟩) "e0") 6 ++
    alone 1 (.create "t2" "a" (some ⟨"k", "h"⟩) "e1") 5

theorem create_succeeds_iff_replayedCreate :
    ∃ c res, calls.run ⟨State.init, fun _ => none⟩ replayedCreate = some c ∧
      c.proc 1 = some (.create "t2" "a" (some ⟨"k", "h"⟩) "e1", .ret res) ∧ res.err = none ∧
      Succeeds 1 ⟨"k", "h"⟩ res c.shared := by
  obtain ⟨c, hrun, hproc, hfault, hhistory, hcall⟩ :
      ∃ c, calls.run ⟨State.init, fun _ => none⟩ replayedCreate = some c ∧
        c.proc 1 = some (.create "t2" "a" (some ⟨"k", "h"⟩) "e1",
          .ret { task := ⟨"t1", "a", false, 1, 0⟩, replayed := true }) ∧
        (c.shared.notes 1).faulted = false ∧
        c.shared.db.tables.history = [.created ⟨"t1", "a", false, 1, 0⟩ 0] ∧
        (c.shared.notes 0).call = some (.create "t1" "a" (some ⟨"k", "h"⟩) "e0") :=
    ⟨_, rfl, rfl, rfl, rfl, rfl⟩
  have hall := (create_succeeds_iff (Machine.Reachable.init.run hrun)).2.2 1 _ _ _ _ _ hproc
  refine ⟨c, _, hrun, hproc, rfl, (hall ?_ hfault).2 rfl⟩
  intro t q id' title' k' ev' hmem hq _
  rw [hhistory] at hmem
  cases mem_singleton.mp hmem
  rw [hcall] at hq
  cases hq
  rfl

/-- A create finds its key taken and rolls back; the owner's task is deleted before it reads. -/
def deletedBeforeRead : List (Conc.Event Nat Choice Env Call) :=
  alone 0 (.create "t1" "a" (some ⟨"k", "h"⟩) "e0") 6 ++
    alone 1 (.create "t2" "a" (some ⟨"k", "h"⟩) "e1") 4 ++
    alone 2 (.delete "t1" none "e2") 5 ++ [.step 1 .ok]

/-- Two creates with one key and hash and a delete: the second create fails, though nothing
went wrong but the timing. -/
theorem create_fails_deletedBeforeRead :
    ∃ c res, calls.run ⟨State.init, fun _ => none⟩ deletedBeforeRead = some c ∧
      calls.Reachable State.init c ∧
      c.proc 1 = some (.create "t2" "a" (some ⟨"k", "h"⟩) "e1", .ret res) ∧
      (c.shared.notes 1).faulted = false ∧
      res.err = some (.wrap "store: replay idempotent create: " (.sentinel .notFound)) := by
  refine ⟨_, _, rfl, ?_, rfl, rfl, rfl⟩
  exact Machine.Reachable.init.run (rfl : calls.run _ deletedBeforeRead = _)

end GolangBasics.Tasks.Store
