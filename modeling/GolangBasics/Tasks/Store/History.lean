import GolangBasics.Tasks.Store.Calls
import Mathlib.Data.List.Pairwise

/-! The event log of a task is its history, and no update of a task is lost. -/
namespace GolangBasics.Tasks.Store
open Conc List

variable {c : Conc.Config Nat Req Rep State Call Result} {p : Nat} {call : Call} {res : Result}

theorem call_of_proc (hc : calls.Reachable State.init c) {prog : Tx Result}
    (hp : c.proc p = some (call, prog)) : (c.shared.notes p).call = some call := by
  refine Protocol.started_of_reachable (G := protocol) (Q := Returned)
    (T := fun p call s => (s.notes p).call = some call) inv_init
    (fun p call s s' hs h => follows_run hs h) ?_ ?_ hc hp
  · intro p call s s' h
    obtain ⟨ids, n, ha, rfl⟩ := accepted h
    simp [ha.asked]
  · intro p call s s' hstep h
    cases hstep with
    | serve hinv hpre hserve =>
      have hmove := serve_move hinv hpre hserve
      cases hmove with
      | step _ _ _ _ _ _ hcall _ => exact (call_update hcall p).trans h
      | commit => exact h
      | purge => exact h
    | env hinv henv => exact (kept_env (q := p) hinv henv).call p call h
    | accept hinv haccept =>
      obtain ⟨ids, n, ha, rfl⟩ := accepted haccept
      exact (congrArg Notes.call (ha.update_eq h)).trans h

/-- A call that reported an error before its commit, or a replay, has changed nothing. -/
theorem untouched_of_returned (hc : calls.Reachable State.init c)
    (hp : c.proc p = some (call, .ret res))
    (h : res.replayed ∨ ∃ err, res.err = some err ∧ ¬ AmbiguousCommit err) :
    Untouched p c.shared := by
  have hout := (holds_of_run hc).returned hp
  have hsettled : ∀ {α : Type} {C : α → Entry → Prop} {F : α → Err → State → Prop} {a : α},
      res.replayed = false → Settled p C F (fun _ => True) (a, res.err) c.shared →
      Untouched p c.shared := by
    intro α C F a hreplayed hsettled
    obtain ⟨err, herr, hcommit⟩ := h.resolve_left (by simp [hreplayed])
    rw [herr] at hsettled
    exact hsettled.2.resolve_right hcommit
  cases call with
  | create id title idem ev =>
    obtain ⟨task, replayed, count, err⟩ := res
    simp only [Returned] at hout
    cases hout with
    | new => simp at h
    | replayed hu => exact hu
    | reused hu => exact hu
    | lost hu => exact hu
    | failed hf hu =>
      obtain ⟨err', herr, hcommit⟩ := h.resolve_left (by simp)
      cases herr
      exact hu.resolve_right hcommit
  | update id patch expect ev => exact hsettled hout.1 hout.2
  | delete id expect ev => exact hsettled hout.1 hout.2
  | get id => exact hout
  | purgeIdempotencyKeys ttl => exact hout

variable {s : State}

theorem Untouched.tx_ne (h : Untouched p s) (hs : Inv s) :
    (∀ e ∈ s.db.tables.history, e.tx ≠ p) ∧ ∀ o ∈ s.db.tables.outbox, o.tx ≠ p := by
  have hhistory : ∀ e ∈ s.db.tables.history, e.tx ≠ p := by
    rintro e he rfl
    exact h.1 ((hs.recorded.committed _).mpr (mem_map_of_mem he))
  refine ⟨hhistory, fun o ho => ?_⟩
  have hmem := mem_map_of_mem (f := fun o : OutboxRow => (o.event, o.tx)) ho
  rw [hs.sound.events] at hmem
  obtain ⟨e, he, heq⟩ := mem_map.mp hmem
  have htx : e.tx = o.tx := congrArg Prod.snd heq
  exact htx ▸ hhistory e he

/-- The events of one task are its changes, in the order of their ids. -/
theorem Sound.events_of {t : Tables} (h : Sound t) (id : String) :
    (t.outbox.filter fun o => o.event.aggregateID = id).map OutboxRow.event =
      (entriesOf id t.history).map Entry.event := by
  have hevents : t.outbox.map OutboxRow.event = t.history.map Entry.event := by
    have hfst := congrArg (List.map Prod.fst) h.events
    simpa [map_map, Function.comp_def] using hfst
  have hfilter := congrArg (List.filter fun e => decide (e.aggregateID = id)) hevents
  rw [filter_map, filter_map] at hfilter
  simpa [entriesOf, Function.comp_def, Entry.event_aggregateID] using hfilter

theorem Sound.ids_of {t : Tables} (h : Sound t) (id : String) :
    (t.outbox.filter fun o => o.event.aggregateID = id).Pairwise fun a b => a.id < b.id := by
  refine List.Pairwise.imp_of_mem ?_ (h.ordered.filter _)
  intro a b ha hb hlt
  have ha : a.event.aggregateID = id := by simpa using (mem_filter.mp ha).2
  have hb : b.event.aggregateID = id := by simpa using (mem_filter.mp hb).2
  exact hlt (ha.trans hb.symm)

theorem history_of_steps {s' : State} (h : protocol.Steps s s') :
    s'.db.tables.history = s.db.tables.history ∨
      ∃ e, s'.db.tables.history = s.db.tables.history ++ [e] := by
  have hcommit : ∀ p cs, Complete cs →
      ∃ e, (s.commit p cs).db.tables.history = s.db.tables.history ++ [e] := by
    rintro p _ ⟨e, key, row, rfl, -⟩
    refine ⟨e, ?_⟩
    show (Database.applyAll Change.apply (transaction e key row) s.db.tables).history = _
    rw [applyAll_transaction]
  cases h with
  | serve hinv hpre hserve =>
    cases serve_move hinv hpre hserve with
    | step _ htables => exact .inl (congrArg Tables.history htables)
    | commit _ hc => exact .inr (hcommit _ _ hc)
    | purge => exact .inl rfl
  | @env e _ _ hinv henv =>
    cases e with
    | tick =>
      cases henv
      exact .inl rfl
    | land p =>
      simp only [calls, env] at henv
      split at henv <;> cases henv
      exact .inr (hcommit p _ (hinv.committing p _ ‹_›))
    | drop p =>
      simp only [calls, env] at henv
      split at henv <;> cases henv
      · exact .inl rfl
      · exact .inl rfl
    | giveUp p =>
      simp only [calls, env] at henv
      split at henv <;> cases henv
      exact .inl rfl
  | accept hinv haccept =>
    obtain ⟨ids, n, -, rfl⟩ := accepted haccept
    exact .inl rfl

/-- Each step of a run leaves the life of a task or takes it one step on. -/
theorem life_of_steps {s' : State} (hs : Inv s) (hs' : Inv s') (h : protocol.Steps s s')
    (id : String) : ∃ l l', Lives (entriesOf id s.db.tables.history) l ∧
      rowOf id s.db.tables.tasks = l.row ∧ Lives (entriesOf id s'.db.tables.history) l' ∧
      rowOf id s'.db.tables.tasks = l'.row ∧ (l' = l ∨ Life.Step l l') := by
  obtain ⟨l, hl, hrow⟩ := hs.sound.life id
  obtain ⟨l', hl', hrow'⟩ := hs'.sound.life id
  refine ⟨l, l', hl, hrow, hl', hrow', ?_⟩
  rcases history_of_steps h with hsame | ⟨e, hnew⟩
  · rw [hsame] at hl'
    exact .inl (hl'.unique hl)
  · by_cases hid : e.id = id
    · subst hid
      rw [hnew, entriesOf_snoc_self] at hl'
      exact .inr (hl.step hl')
    · rw [hnew, entriesOf_snoc_of_ne hid] at hl'
      exact .inl (hl'.unique hl)

theorem rows_of_steps {s' : State} (hs' : Inv s') (h : protocol.Steps s s') (id : String) :
    rowsOf (entriesOf id s'.db.tables.history) = rowsOf (entriesOf id s.db.tables.history) ∨
      ∃ t, rowsOf (entriesOf id s'.db.tables.history) =
          rowsOf (entriesOf id s.db.tables.history) ++ [t] ∧
        rowOf id s'.db.tables.tasks = some t := by
  rcases history_of_steps h with hsame | ⟨e, hnew⟩
  · exact .inl (by rw [hsame])
  · by_cases hid : e.id = id
    · subst hid
      obtain ⟨l, hl, hrow⟩ := hs'.sound.life e.id
      rw [hnew, entriesOf_snoc_self] at hl ⊢
      rw [rowsOf_snoc]
      cases he : e.row with
      | none => exact .inl (by simp)
      | some t => exact .inr ⟨t, rfl, hrow.trans (hl.row_of_snoc he)⟩
    · exact .inl (by rw [hnew, entriesOf_snoc_of_ne hid])

/-- The event log is the history: in the order of the outbox ids, the events of a task are its
creation at version 1, its updates at the versions 2 to `n` with the rows of those versions,
and at most a deletion at version `n`; the row that is left is the last one, and each was the
row of the table when its change was made. A call that reports an error other than that of its
commit, or a replay, has added no event. -/
theorem events_tell_history (hc : calls.Reachable State.init c) :
    (∀ id, ∃ deleted,
      let events := c.shared.db.tables.outbox.filter fun o => o.event.aggregateID = id
      let rows := rowsOf (entriesOf id c.shared.db.tables.history)
      events.Pairwise (fun a b => a.id < b.id) ∧
      events.map OutboxRow.event = story rows deleted ∧
      rows.map Task.version = (List.range rows.length).map (fun i : Nat => (i : Int) + 1) ∧
      rowOf id c.shared.db.tables.tasks = if deleted then none else rows.getLast?) ∧
    (∀ e c', calls.next c e = some c' → ∀ id,
      let rows := rowsOf (entriesOf id c.shared.db.tables.history)
      let rows' := rowsOf (entriesOf id c'.shared.db.tables.history)
      rows' = rows ∨
        ∃ t, rows' = rows ++ [t] ∧ rowOf id c'.shared.db.tables.tasks = some t) ∧
    (∀ p call res, c.proc p = some (call, .ret res) →
      (res.replayed ∨ ∃ err, res.err = some err ∧ ¬ AmbiguousCommit err) →
      ∀ o ∈ c.shared.db.tables.outbox, o.tx ≠ p) := by
  have hs := (holds_of_run hc).1
  refine ⟨fun id => ?_, fun e c' hnext id => ?_, fun p call res hp h => ?_⟩
  · obtain ⟨l, hl, hrow⟩ := hs.sound.life id
    refine ⟨l.isDead, hs.sound.ids_of id, ?_, hl.versions, ?_⟩
    · rw [hs.sound.events_of id, hl.story]
    · rw [hrow, hl.rowsOf_getLast]
      cases l <;> rfl
  · exact rows_of_steps (holds_of_run (hc.step e hnext)).1 ((holds_of_run hc).steps hnext) id
  · exact ((untouched_of_returned hc hp h).tx_ne hs).2

def alone (p : Nat) (call : Call) (requests : Nat) : List (Conc.Event Nat Choice Env Call) :=
  .start p call :: List.replicate requests (.step p .ok)

/-- A task is created, its create replayed, then it is updated, refused a stale update and
deleted. -/
def oneLife : List (Conc.Event Nat Choice Env Call) :=
  alone 0 (.create "t1" "a" (some ⟨"k", "h"⟩) "e0") 6 ++
    alone 1 (.create "t2" "a" (some ⟨"k", "h"⟩) "e1") 5 ++
    alone 2 (.update "t1" ⟨some "b", none⟩ (some 1) "e2") 5 ++
    alone 3 (.update "t1" ⟨none, some true⟩ (some 1) "e3") 4 ++ alone 4 (.delete "t1" none "e4") 5

theorem events_tell_history_oneLife :
    ∃ c, calls.run ⟨State.init, fun _ => none⟩ oneLife = some c ∧
      c.shared.db.tables.outbox.map OutboxRow.event =
        [.created "t1" "a" 0 1, .updated "t1" "b" false 2, .deleted "t1" 2] ∧
      (∃ deleted, (c.shared.db.tables.outbox.filter fun o =>
          o.event.aggregateID = "t1").map OutboxRow.event =
        story (rowsOf (entriesOf "t1" c.shared.db.tables.history)) deleted) ∧
      ∀ o ∈ c.shared.db.tables.outbox, o.tx ≠ 3 := by
  obtain ⟨c, hrun, hevents, hrefused⟩ :
      ∃ c, calls.run ⟨State.init, fun _ => none⟩ oneLife = some c ∧
        c.shared.db.tables.outbox.map OutboxRow.event =
          [.created "t1" "a" 0 1, .updated "t1" "b" false 2, .deleted "t1" 2] ∧
        c.proc 3 = some (.update "t1" ⟨none, some true⟩ (some 1) "e3",
          .ret { err := some (.sentinel .versionMismatch) }) := ⟨_, rfl, rfl, rfl⟩
  have hall := events_tell_history (Machine.Reachable.init.run hrun)
  obtain ⟨deleted, -, hstory, -⟩ := hall.1 "t1"
  exact ⟨c, hrun, hevents, ⟨deleted, hstory⟩,
    hall.2.2 3 _ _ hrefused (.inr ⟨_, rfl, by simp [AmbiguousCommit]⟩)⟩

def Call.Changes (id : String) : Call → Prop
  | .update id' .. | .delete id' .. => id' = id
  | _ => False

def Call.Names (id : String) (v : Int) : Call → Prop
  | .update id' _ expect _ | .delete id' expect _ => id' = id ∧ expect = some v
  | _ => False

variable {id : String}

theorem Call.Names.changes {v : Int} (h : call.Names id v) : call.Changes id := by
  cases call with
  | update => exact h.1
  | delete => exact h.1
  | _ => exact h

/-- A change made for a call is one of its task, with its expectation. -/
theorem Entry.Asked.expect_eq {e : Entry} {v : Int} (h : e.Asked (some call))
    (hcall : call.Names id v) : e.expect = some v := by
  cases e with
  | created =>
    obtain ⟨idem, ev, heq⟩ := h
    cases heq
    exact hcall.elim
  | updated =>
    obtain ⟨ev, heq⟩ := h
    cases heq
    exact hcall.2
  | deleted =>
    obtain ⟨ev, heq⟩ := h
    cases heq
    exact hcall.2

theorem Entry.Asked.id_eq {e : Entry} (h : e.Asked (some call)) (hcall : call.Changes id) :
    e.id = id := by
  cases e with
  | created =>
    obtain ⟨idem, ev, heq⟩ := h
    cases heq
    exact hcall.elim
  | updated =>
    obtain ⟨ev, heq⟩ := h
    cases heq
    exact hcall
  | deleted =>
    obtain ⟨ev, heq⟩ := h
    cases heq
    exact hcall

theorem Inv.exists_entry (hs : Inv s) (hcall : (s.notes p).call = some call)
    (hp : p ∈ s.db.committed) (hid : call.Changes id) :
    ∃ e ∈ entriesOf id s.db.tables.history, e.tx = p ∧ e.Asked (some call) := by
  obtain ⟨e, he, rfl⟩ := mem_map.mp ((hs.recorded.committed p).mp hp)
  have hasked := hs.recorded.asked e he
  rw [hcall] at hasked
  exact ⟨e, mem_filter.mpr ⟨he, decide_eq_true (hasked.id_eq hid)⟩, rfl, hasked⟩

theorem committed_of_success (hc : calls.Reachable State.init c)
    (hp : c.proc p = some (call, .ret res)) (hid : call.Changes id) (herr : res.err = none) :
    p ∈ c.shared.db.committed := by
  have hout := (holds_of_run hc).returned hp
  have hsettled : ∀ {α : Type} {C : α → Entry → Prop} {F : α → Err → State → Prop} {a : α},
      Settled p C F (fun _ => True) (a, res.err) c.shared → p ∈ c.shared.db.committed := by
    intro α C F a hsettled
    rw [herr] at hsettled
    obtain ⟨-, e, he, rfl, -⟩ := hsettled
    exact ((holds_of_run hc).1.recorded.committed _).mpr (mem_map_of_mem he)
  cases call with
  | update => exact hsettled hout.2
  | delete => exact hsettled hout.2
  | _ => exact hid.elim

theorem Inv.names_unique (hs : Inv s) {q : Nat} {call' : Call} {v : Int}
    (hp : (s.notes p).call = some call) (hq : (s.notes q).call = some call') (hv : call.Names id v)
    (hv' : call'.Names id v) (hpc : p ∈ s.db.committed) (hqc : q ∈ s.db.committed) : p = q := by
  obtain ⟨l, hl, -⟩ := hs.sound.life id
  obtain ⟨e, he, rfl, hasked⟩ := hs.exists_entry hp hpc hv.changes
  obtain ⟨e', he', rfl, hasked'⟩ := hs.exists_entry hq hqc hv'.changes
  have hsymm : Std.Symm fun a b : Entry => ∀ v, a.expect = some v → b.expect ≠ some v :=
    ⟨fun a b h v hb ha => h v ha hb⟩
  by_contra hne
  have hee' : e ≠ e' := fun heq => hne (congrArg Entry.tx heq)
  exact hl.expect_unique.forall he he' hee' v (hasked.expect_eq hv) (hasked'.expect_eq hv')

theorem Lives.row_eq_fold {es : List Entry} {r : Task} (h : Lives es (.live r)) :
    ∃ t₀ tx, es.head? = some (.created t₀ tx) ∧
      r = { (patchesOf es).foldl (fun t patch => patch.apply t) t₀ with
        version := (patchesOf es).length + 1 } := by
  obtain ⟨t₀, tx, hhead, hrows⟩ := h.head_created fun hnil => by cases h.eq_unborn hnil
  have hfold := h.fold hrows rfl
  have hversion := h.version_last rfl
  have hlength := h.length_patchesOf (by simp [Life.last])
  have hr : r.version = (patchesOf es).length + 1 := by omega
  rw [hr] at hfold
  exact ⟨t₀, tx, hhead, hfold⟩

theorem miss_of_returned (hc : calls.Reachable State.init c) (hp : c.proc p = some (call, .ret res))
    (hid : call.Changes id) {err : Err} (herr : res.err = some err) :
    (err.is .notFound → none ∈ (c.shared.notes p).saw) ∧
      (err.is .versionMismatch → (c.shared.notes p).created →
        ∃ v w, call.Names id v ∧ v ≠ w ∧ some w ∈ (c.shared.notes p).saw) := by
  have hout := (holds_of_run hc).returned hp
  have hmiss : ∀ {α : Type} {C : α → Entry → Prop} {a : α} {expect : Option Int},
      (∀ v, expect = some v → call.Names id v) →
      Settled p C (fun _ => Miss p expect) (fun _ => True) (a, res.err) c.shared →
      (err.is .notFound → none ∈ (c.shared.notes p).saw) ∧
        (err.is .versionMismatch → (c.shared.notes p).created →
          ∃ v w, call.Names id v ∧ v ≠ w ∧ some w ∈ (c.shared.notes p).saw) := by
    intro α C a expect hnames hsettled
    rw [herr] at hsettled
    obtain ⟨⟨hmissing, hmismatch⟩, -⟩ := hsettled
    refine ⟨hmissing, fun h hcreated => ?_⟩
    obtain ⟨v, w, hv, hne, hw⟩ := hmismatch h hcreated
    exact ⟨v, w, hnames v hv, hne, hw⟩
  cases call with
  | update id' patch expect ev => exact hmiss (fun v hv => ⟨hid, hv⟩) hout.2
  | delete id' expect ev => exact hmiss (fun v hv => ⟨hid, hv⟩) hout.2
  | _ => exact hid.elim

/-- No update is lost. Every change of a task is that of a committed call, and a call that
reports success has made its change; of the calls that name a version at most one commits, and
it finds the task at that version; the row is the fold of the patches over the created task; a
refused call has changed nothing, and what it reports was so when one of its statements looked
at the task. -/
theorem no_lost_update (hc : calls.Reachable State.init c) (id : String) :
    let s := c.shared
    let es := entriesOf id s.db.tables.history
    (∀ e ∈ es, e.tx ∈ s.db.committed ∧ e.Asked (s.notes e.tx).call) ∧
    (∀ p call res, c.proc p = some (call, .ret res) → call.Changes id → res.err = none →
      ∃ e ∈ es, e.tx = p ∧ e.Asked (some call)) ∧
    (∀ p q call call' v, (s.notes p).call = some call → (s.notes q).call = some call' →
      call.Names id v → call'.Names id v → p ∈ s.db.committed → q ∈ s.db.committed → p = q) ∧
    (∀ before e after v, es = before ++ e :: after → e.expect = some v →
      ∃ r, (rowsOf before).getLast? = some r ∧ r.version = v) ∧
    (∀ r, rowOf id s.db.tables.tasks = some r → ∃ t₀ tx, es.head? = some (.created t₀ tx) ∧
      r = { (patchesOf es).foldl (fun t patch => patch.apply t) t₀ with
        version := (patchesOf es).length + 1 }) ∧
    (∀ p call res err, c.proc p = some (call, .ret res) → res.err = some err →
      ¬ AmbiguousCommit err →
      (∀ e ∈ s.db.tables.history, e.tx ≠ p) ∧ ∀ o ∈ s.db.tables.outbox, o.tx ≠ p) ∧
    (∀ p call res err, c.proc p = some (call, .ret res) → call.Changes id → res.err = some err →
      (err.is .notFound → none ∈ (s.notes p).saw) ∧
      (err.is .versionMismatch → (s.notes p).created →
        ∃ v w, call.Names id v ∧ v ≠ w ∧ some w ∈ (s.notes p).saw)) := by
  intro s es
  have hs : Inv s := (holds_of_run hc).1
  obtain ⟨l, hl, -⟩ := hs.sound.life id
  refine ⟨?_, ?_, ?_, ?_, ?_, ?_, ?_⟩
  · intro e he
    have hhistory := (mem_filter.mp he).1
    exact ⟨(hs.recorded.committed _).mpr (mem_map_of_mem hhistory),
      hs.recorded.asked e hhistory⟩
  · intro p call res hp hid herr
    exact hs.exists_entry (call_of_proc hc hp) (committed_of_success hc hp hid herr) hid
  · exact fun p q call call' v hp hq hv hv' => hs.names_unique hp hq hv hv'
  · exact fun before e after v hes hv => hl.expect_eq_version hes hv
  · exact fun r hr => (hs.sound.lives_of_row hr).row_eq_fold
  · intro p call res err hp herr hcommit
    exact (untouched_of_returned hc hp (.inr ⟨err, herr, hcommit⟩)).tx_ne hs
  · exact fun p call res err hp hid herr => miss_of_returned hc hp hid herr

/-- Two updates that name version 1 race: the second waits for the first and is refused. -/
def race : List (Conc.Event Nat Choice Env Call) :=
  alone 0 (.create "t1" "a" none "e0") 5 ++
    [.start 1 (.update "t1" ⟨some "b", none⟩ (some 1) "e1"), .step 1 .ok, .step 1 .ok,
      .start 2 (.update "t1" ⟨none, some true⟩ (some 1) "e2"), .step 2 .ok,
      .step 1 .ok, .step 1 .ok, .step 1 .ok, .step 2 .ok, .step 2 .ok, .step 2 .ok]

theorem no_lost_update_race :
    ∃ c, calls.run ⟨State.init, fun _ => none⟩ race = some c ∧
      rowOf "t1" c.shared.db.tables.tasks = some ⟨"t1", "b", false, 2, 0⟩ ∧
      (∃ t₀ tx, (entriesOf "t1" c.shared.db.tables.history).head? = some (.created t₀ tx) ∧
        (⟨"t1", "b", false, 2, 0⟩ : Task) =
          { (patchesOf (entriesOf "t1" c.shared.db.tables.history)).foldl
            (fun t patch => patch.apply t) t₀ with
            version := (patchesOf (entriesOf "t1" c.shared.db.tables.history)).length + 1 }) ∧
      (∀ o ∈ c.shared.db.tables.outbox, o.tx ≠ 2) ∧
      ∃ v w, v ≠ w ∧ some w ∈ (c.shared.notes 2).saw := by
  obtain ⟨c, hrun, hrow, hrefused, hcreated⟩ :
      ∃ c, calls.run ⟨State.init, fun _ => none⟩ race = some c ∧
        rowOf "t1" c.shared.db.tables.tasks = some ⟨"t1", "b", false, 2, 0⟩ ∧
        c.proc 2 = some (.update "t1" ⟨none, some true⟩ (some 1) "e2",
          .ret { err := some (.sentinel .versionMismatch) }) ∧
        (c.shared.notes 2).created = true := ⟨_, rfl, rfl, rfl, rfl⟩
  obtain ⟨-, -, -, -, hfold, hnothing, hmiss⟩ :=
    no_lost_update (Machine.Reachable.init.run hrun) "t1"
  obtain ⟨v, w, -, hne, hw⟩ := (hmiss 2 _ _ _ hrefused rfl rfl).2 rfl hcreated
  exact ⟨c, hrun, hrow, hfold _ hrow,
    (hnothing 2 _ _ _ hrefused rfl (by simp [AmbiguousCommit])).2, v, w, hne, hw⟩

end GolangBasics.Tasks.Store
