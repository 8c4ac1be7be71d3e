import GolangBasics.Tasks.Outbox.Pass

/-! The outbox loses nothing and keeps the order of each task's events. -/
namespace GolangBasics.Tasks.Outbox
open Conc Conc.Protocol List Option

variable {orderly : Bool} {p : Nat} {s s' : State}

theorem tables_of_move (hs : Inv orderly s) (h : Move orderly p s s') :
    s'.db.tables = s.db.tables ∨
      p ∉ s.db.committed ∧ s'.db.committed = p :: s.db.committed := by
  cases h with
  | skip => exact .inl rfl
  | session _ htables => exact .inl htables
  | @commit _ cs hp =>
    have hstep : s.db.Step apply p (s.db.commit apply p cs) := .commit hp
    exact .inr ⟨hstep.not_committed hs.2.wf, rfl⟩
  | sent => exact .inl rfl

theorem tables_of_env (hs : Inv orderly s) {e : Env} (h : env orderly e s = some s') :
    s'.db.tables = s.db.tables ∨ (∃ x, e = .enqueue x) ∨
      ∃ p, p ∉ s.db.committed ∧ s'.db.committed = p :: s.db.committed := by
  cases e with
  | enqueue x => exact .inr (.inl ⟨x, rfl⟩)
  | tick d =>
    cases h
    exact .inl rfl
  | land p =>
    simp only [env] at h
    split at h <;> cases h
    rename_i cs hp
    exact (tables_of_move hs (.commit (t := 0) (.inr hp) (hs.2.committing p cs hp))).imp_right
      fun hc => .inr ⟨p, hc⟩
  | crash p =>
    simp only [env] at h
    split at h <;> cases h <;> exact .inl rfl
  | drop p =>
    simp only [env] at h
    split at h <;> cases h
    exact .inl rfl
  | giveUp p =>
    simp only [env] at h
    split at h <;> cases h
    exact .inl rfl

theorem tables_of_next {c c' : Conc.Config Nat Req Rep State (Bool × Config) Outcome}
    (hc : (protocol orderly).Holds (fun _ _ _ _ => True) c)
    {e : Conc.Event Nat Choice Env (Bool × Config)} (hnext : (passes orderly).next c e = some c') :
    c'.shared.db.tables = c.shared.db.tables ∨ (∃ x, e = .env (.enqueue x)) ∨
      ∃ p, p ∉ c.shared.db.committed ∧ c'.shared.db.committed = p :: c.shared.db.committed := by
  obtain ⟨hinv, hprocs⟩ := hc
  cases e with
  | start p call =>
    simp only [Machine.next] at hnext
    split at hnext
    · cases hnext
    · obtain ⟨s, haccept, rfl⟩ := map_eq_some_iff.mp hnext
      simp only [passes] at haccept
      split_ifs at haccept
      cases haccept
      exact .inl rfl
  | step p x =>
    simp only [Machine.next] at hnext
    split at hnext
    · rename_i call r k hp
      obtain ⟨⟨rep, s⟩, hserve, rfl⟩ := map_eq_some_iff.mp hnext
      have hpre := (hprocs p call _ hp c.shared .refl hinv).1
      exact (tables_of_move hinv (serve_move hpre hserve)).imp_right fun h => .inr ⟨p, h⟩
    · cases hnext
  | env e =>
    obtain ⟨s, henv, rfl⟩ := map_eq_some_iff.mp hnext
    rcases tables_of_env hinv henv with h | ⟨x, rfl⟩ | h
    · exact .inl h
    · exact .inr (.inl ⟨x, rfl⟩)
    · exact .inr (.inr h)

/-- Nothing is lost: a committed row is in the table or was acknowledged; the table changes
only when an event is enqueued or a pass commits; and a second acknowledgement of a row means
that the pass of the first one has not committed. -/
theorem outbox_loses_nothing {c : Conc.Config Nat Req Rep State (Bool × Config) Outcome}
    (hc : (passes false).Reachable State.init c) :
    (∀ x ∈ c.shared.enqueued,
      (∃ r ∈ c.shared.db.tables, r.toPending = x) ∨ Acked c.shared.log x.id) ∧
    (∀ e c', (passes false).next c e = some c' → c'.shared.db.tables = c.shared.db.tables ∨
      (∃ x, e = .env (.enqueue x)) ∨
      ∃ p, p ∉ c.shared.db.committed ∧ c'.shared.db.committed = p :: c.shared.db.committed) ∧
    (∀ post later mid earlier pre, c.shared.log = post ++ later :: (mid ++ earlier :: pre) →
      later.acked → earlier.acked → later.row = earlier.row →
      earlier.pass ≠ later.pass ∧ earlier.pass ∉ c.shared.db.committed) := by
  have hinv := (holds_of_run hc).1
  refine ⟨hinv.1.kept, fun _ _ => tables_of_next (holds_of_run hc), ?_⟩
  intro post later mid earlier pre hlog hlater hearlier hrow
  have honce := hinv.2.once
  rw [hlog] at honce
  have hpair := (pairwise_cons.mp (pairwise_append.mp honce).2.1).1 earlier (by simp)
  obtain ⟨hpass, hcommitted, -⟩ := hpair hlater hearlier hrow
  exact ⟨hpass, hcommitted⟩

def lostCommit : List (Conc.Event Nat Choice Env (Bool × Config)) :=
  let relay : Bool × Config := (true, ⟨"tasks.events", 0, 0, 0⟩)
  [.env (.enqueue ⟨1, "e1", "t1", .created, [], []⟩),
    .start 0 relay, .step 0 .ok, .step 0 .ok, .step 0 (.rows []), .step 0 (.cancelled false),
    .step 0 (.sent none), .step 0 .ok, .step 0 (.unknown (.sentinel .canceled)), .env (.giveUp 0),
    .start 1 relay, .step 1 .ok, .step 1 .ok, .step 1 (.rows []), .step 1 (.cancelled false),
    .step 1 (.sent none), .step 1 .ok, .step 1 .ok]

theorem outbox_loses_nothing_lostCommit :
    ∃ c later earlier, (passes false).run ⟨State.init, fun _ => none⟩ lostCommit = some c ∧
      c.shared.log = [later, earlier] ∧ later.row = earlier.row ∧ c.shared.db.committed = [1] ∧
      earlier.pass ≠ later.pass ∧ earlier.pass ∉ c.shared.db.committed := by
  obtain ⟨c, hrun, hlog, hcommitted⟩ :
      ∃ c, (passes false).run ⟨State.init, fun _ => none⟩ lostCommit = some c ∧
        c.shared.log = [⟨1, 1, none⟩, ⟨0, 1, none⟩] ∧ c.shared.db.committed = [1] :=
    ⟨_, rfl, rfl, rfl⟩
  have honce := (outbox_loses_nothing (Machine.Reachable.init.run hrun)).2.2 [] ⟨1, 1, none⟩ []
    ⟨0, 1, none⟩ [] hlog rfl rfl rfl
  exact ⟨c, _, _, hrun, hlog, rfl, hcommitted, honce⟩

/-- When the broker acknowledges a row, every earlier row of its task has been acknowledged
or rejected before. -/
theorem outbox_keeps_task_order {c : Conc.Config Nat Req Rep State (Bool × Config) Outcome}
    (hc : (passes true).Reachable State.init c) :
    ∀ post y pre, c.shared.log = post ++ y :: pre → y.acked →
      ∀ a ∈ c.shared.enqueued, ∀ b ∈ c.shared.enqueued, b.id = y.row →
        a.aggregateID = b.aggregateID → a.id < b.id → Acked pre a.id ∨ Rejected pre a.id :=
  (holds_of_run hc).1.1.order rfl

/-- Two rows of one task in one batch: the first is rejected, the second acknowledged. -/
def stepAside : List (Conc.Event Nat Choice Env (Bool × Config)) :=
  let refused : Err := newSendError .rejected 10 (.new [])
  [.env (.enqueue ⟨1, "e1", "t1", .created, [], []⟩),
    .env (.enqueue ⟨2, "e2", "t1", .updated, [], []⟩),
    .start 0 (true, ⟨"tasks.events", 0, 0, 0⟩), .step 0 .ok, .step 0 .ok, .step 0 (.rows []),
    .step 0 (.cancelled false), .step 0 (.sent (some refused)), .step 0 .ok,
    .step 0 (.cancelled false), .step 0 (.sent none), .step 0 .ok, .step 0 .ok]

theorem outbox_keeps_task_order_stepAside :
    ∃ c y z, (passes true).run ⟨State.init, fun _ => none⟩ stepAside = some c ∧
      c.shared.log = [y, z] ∧ y.acked ∧ y.row = 2 ∧ (Acked [z] 1 ∨ Rejected [z] 1) := by
  have hend : ((passes true).run ⟨State.init, fun _ => none⟩ stepAside).map
      (fun c => (c.shared.log, c.shared.enqueued)) =
        some ([⟨0, 2, none⟩, ⟨0, 1, some (newSendError .rejected 10 (.new []))⟩],
          [⟨2, "e2", "t1", .updated, [], []⟩, ⟨1, "e1", "t1", .created, [], []⟩]) := by
    decide +kernel
  obtain ⟨c, hrun, hend⟩ := map_eq_some_iff.mp hend
  obtain ⟨hlog, henqueued⟩ := Prod.mk.inj hend
  have horder := outbox_keeps_task_order (Machine.Reachable.init.run hrun) [] ⟨0, 2, none⟩ _ hlog
    rfl ⟨1, "e1", "t1", .created, [], []⟩ (by simp [henqueued])
    ⟨2, "e2", "t1", .updated, [], []⟩ (by simp [henqueued]) rfl rfl (by decide)
  exact ⟨c, _, _, hrun, hlog, rfl, rfl, horder⟩

end GolangBasics.Tasks.Outbox
