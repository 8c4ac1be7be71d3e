import GolangBasics.Tasks.Store.Moves

/-! The protocol of the store's calls: when a call may make a request, and that every
request, every step of the server and every new call keep the invariant. -/
namespace GolangBasics.Tasks.Store
open Conc List Option

variable {p q : Nat} {s s' : State} {c : Change}

def pre (p : Nat) (r : Req) (s : State) : Prop :=
  match r with
  | .insertTask id title => ∀ t cs, s.db.session p = some (.active t cs) → cs = [] ∧
      ∃ idem ev, (s.notes p).call = some (.create id title idem ev)
  | .recordKey key requestHash taskID => ∀ t cs, s.db.session p = some (.active t cs) →
      (∃ r tx, cs = [.task (.created r tx)]) ∧
      ∃ title ev, (s.notes p).call = some (.create taskID title (some ⟨key, requestHash⟩) ev)
  | .updateTask id patch expect => ∀ t cs, s.db.session p = some (.active t cs) → cs = [] ∧
      ∃ ev, (s.notes p).call = some (.update id patch expect ev)
  | .deleteTask id expect => ∀ t cs, s.db.session p = some (.active t cs) → cs = [] ∧
      ∃ ev, (s.notes p).call = some (.delete id expect ev)
  | .enqueue _ event => ∀ t cs, s.db.session p = some (.active t cs) →
      ∃ e, .task e ∈ cs ∧ event = e.event
  | .commit => ∀ t cs, s.db.session p = some (.active t cs) → Complete cs
  | _ => True

variable {id : String}

theorem Inv.entriesOf_eq_nil (hs : Inv s) (hp : p ∉ s.db.committed) {title : String}
    {idem : Option IdempotencyKey} {ev : String}
    (hcall : (s.notes p).call = some (.create id title idem ev)) :
    entriesOf id s.db.tables.history = [] := by
  by_contra hne
  obtain ⟨l, hl, -⟩ := hs.sound.life id
  obtain ⟨t, q, hhead, -⟩ := hl.head_created hne
  obtain ⟨hhistory, hid⟩ := mem_filter.mp (List.mem_of_mem_head? hhead)
  obtain rfl : t.id = id := of_decide_eq_true hid
  obtain ⟨idem', ev', hq⟩ := hs.recorded.asked _ hhistory
  obtain rfl := hs.recorded.fresh _ _ _ _ _ _ _ _ _ hq hcall
  exact hp ((hs.recorded.committed _).mpr (List.mem_map_of_mem hhistory))

theorem Inv.not_committed (hs : Inv s) {x : Session Change} (h : s.db.session p = some x)
    (hx : x.isOpen) : p ∉ s.db.committed := by
  intro hin
  obtain rfl : x = .closed := some.inj (h.symm.trans (hs.wf.committed p hin))
  simp [Session.isOpen] at hx

theorem view_nil (h : s.db.changes p = []) : s.db.view Change.apply p = s.db.tables := by
  simp [Database.view, h, Database.applyAll]

variable {expect : Option Int}

theorem matched {tasks : List Task} {r : Task}
    (h : (rowOf id tasks).filter (expected expect) = some r) :
    rowOf id tasks = some r ∧ ∀ v, expect = some v → r.version = v := by
  obtain ⟨hrow, hexpect⟩ := filter_eq_some_iff.mp h
  refine ⟨hrow, ?_⟩
  rintro v rfl
  simpa [expected] using hexpect

theorem free_write {t : Nat} {cs : List Change} {ks : List Lock} {k : Lock} (hk : k ∈ ks) :
    (s.db.write p t cs ks c).locks k = some p := by
  rw [Database.write_locks, if_pos hk]

section Statements

variable {start : Nat} {cs : List Change}

theorem insertTask_move {title : String} {rep : Rep (.insertTask id title)} (hs : Inv s)
    (hp : s.db.session p = some (.active start cs)) (hpre : pre p (.insertTask id title) s)
    (h : execute p s start cs (.insertTask id title) = some (rep, s')) : Move p s s' := by
  obtain ⟨rfl, idem, ev, hcall⟩ := hpre start cs hp
  have hnil := hs.entriesOf_eq_nil (hs.not_committed hp rfl) hcall
  simp only [execute] at h
  split at h
  · cases h
  · rename_i hfree
    have hfree : s.free p [.task id] := by simpa using hfree
    split at h
    · cases h
      exact (shrinks_abort p s true).silent
    · cases h
      exact move_silent (move_write hp hfree le_rfl
        ⟨rfl, free_write (by simp [Entry.id]), ⟨rfl, hnil⟩, idem, ev, hcall⟩ rfl rfl)

/-- A key that is taken is locked and put on record; its owner is a task that exists. -/
theorem recordKey_move {key requestHash taskID : String}
    {rep : Rep (.recordKey key requestHash taskID)} (hs : Inv s)
    (hp : s.db.session p = some (.active start cs))
    (hpre : pre p (.recordKey key requestHash taskID) s)
    (h : execute p s start cs (.recordKey key requestHash taskID) = some (rep, s')) :
    Move p s s' := by
  obtain ⟨⟨r, tx, rfl⟩, title, ev, hcall⟩ := hpre start cs hp
  have hview : (s.db.view Change.apply p).keys = s.db.tables.keys := by
    simp [Database.view, Database.changes_active hp, Database.applyAll, Change.apply,
      Entry.applyKeys]
  simp only [execute, hview] at h
  split at h
  · cases h
  · rename_i hfree
    have hfree : s.free p [.key key] := by simpa using hfree
    split at h
    · rename_i k hk
      cases h
      have hlocks : ∀ l ∈ [Lock.key key], s.db.locks l = none ∨ s.db.locks l = some p := by
        simpa [State.free] using hfree
      refine .step (.inr (.acquire [.key key] hp hlocks)) rfl rfl le_rfl (fun c hc => .inl hc)
        (fun cs hcs => .inl hcs) rfl fun id lost hr => .inr ?_
      obtain ⟨rfl, rfl⟩ : k.taskID = id ∧ false = lost := by simpa using hr
      exact ⟨rfl, hs.sound.owners k (List.mem_of_find?_eq_some hk)⟩
    · rename_i hnone
      cases h
      refine move_silent (move_write hp hfree le_rfl
        ⟨free_write (by simp), fun k' hk' => ?_, title, ev, hcall⟩ rfl rfl)
      simpa using List.find?_eq_none.mp hnone k' hk'

theorem updateTask_move {patch : Patch} {rep : Rep (.updateTask id patch expect)}
    (hp : s.db.session p = some (.active start cs)) (hpre : pre p (.updateTask id patch expect) s)
    (h : execute p s start cs (.updateTask id patch expect) = some (rep, s')) : Move p s s' := by
  obtain ⟨rfl, ev, hcall⟩ := hpre start cs hp
  simp only [execute, view_nil (Database.changes_active hp)] at h
  split at h
  · rename_i r hr
    obtain ⟨hrow, hexpect⟩ := matched hr
    split at h
    · cases h
    · rename_i hfree
      cases h
      have hr := rowOf_id hrow
      have hid : (updatedRow patch r).id = id := hr
      refine move_write hp (by simpa using hfree) le_rfl
        ⟨rfl, free_write (by simp [Entry.id, hid]),
          ⟨r, by rw [hid]; exact hrow, updatedRow_eq_bump patch r, hexpect⟩, ev, ?_⟩ rfl rfl
      rw [hid]
      exact hcall
  · cases h
    exact (shrinks_refl p s.db).move rfl fun _ _ h => h

theorem deleteTask_move {rep : Rep (.deleteTask id expect)}
    (hp : s.db.session p = some (.active start cs)) (hpre : pre p (.deleteTask id expect) s)
    (h : execute p s start cs (.deleteTask id expect) = some (rep, s')) : Move p s s' := by
  obtain ⟨rfl, ev, hcall⟩ := hpre start cs hp
  simp only [execute, view_nil (Database.changes_active hp)] at h
  split at h
  · rename_i r hr
    obtain ⟨hrow, hexpect⟩ := matched hr
    split at h
    · cases h
    · rename_i hfree
      cases h
      exact move_write hp (by simpa using hfree) le_rfl
        ⟨rfl, free_write (by simp [Entry.id]), ⟨r, hrow, rfl, hexpect⟩, ev, hcall⟩ rfl rfl
  · cases h
    exact (shrinks_refl p s.db).move rfl fun _ _ h => h

/-- The event goes to a task whose row the transaction has written, so its id is the last. -/
theorem enqueue_move {eventID : String} {event : TaskEvent} {rep : Rep (.enqueue eventID event)}
    (hs : Inv s) (hp : s.db.session p = some (.active start cs))
    (hpre : pre p (.enqueue eventID event) s)
    (h : execute p s start cs (.enqueue eventID event) = some (rep, s')) : Move p s s' := by
  obtain ⟨e, hmem, rfl⟩ := hpre start cs hp
  cases h
  obtain ⟨-, hlock, -, -⟩ := hs.justified p (.task e) (Database.changes_active hp ▸ hmem)
  refine move_silent (move_write hp (by simp [State.free]) (Nat.le_succ _)
    ⟨rfl, ?_, fun o ho _ => hs.seq o ho, Nat.lt_succ_self _⟩ rfl rfl)
  rw [e.event_aggregateID]
  exact hlock

theorem execute_move {r : Req} {rep : Rep r} (hs : Inv s)
    (hp : s.db.session p = some (.active start cs)) (hpre : pre p r s)
    (h : execute p s start cs r = some (rep, s')) : Move p s s' := by
  cases r with
  | insertTask id title => exact insertTask_move hs hp hpre h
  | recordKey key requestHash taskID => exact recordKey_move hs hp hpre h
  | updateTask id patch expect => exact updateTask_move hp hpre h
  | deleteTask id expect => exact deleteTask_move hp hpre h
  | taskExists id =>
    cases h
    exact (shrinks_refl p s.db).move rfl fun _ _ h => h
  | enqueue eventID event => exact enqueue_move hs hp hpre h
  | commit =>
    cases h
    exact .commit (.inl hp) (hpre start cs hp)
  | _ => cases h

end Statements

theorem answer_move {r : Req} {rep : Rep r} (hs : Inv s) (hpre : pre p r s)
    (h : answer p s r = some (rep, s')) : Move p s s' := by
  cases r with
  | beginTx =>
    simp only [answer] at h
    split at h
    · rename_i hnone
      cases h
      have hsession : (s.db.start p).session p = some (.active s.db.clock []) :=
        Database.put_session_self
      refine move_silent (.step (.inr (.start hnone)) rfl rfl le_rfl (fun c hc => ?_)
        (by simp [hsession]) rfl fun id lost hr => .inl hr)
      rw [Database.changes_active hsession] at hc
      simp at hc
    · cases h
  | rollback =>
    cases h
    exact (shrinks_rollback p s).silent
  | selectTask id =>
    cases h
    refine (shrinks_refl p s.db).move rfl fun id lost hr => ?_
    cases hrep : (s.notes p).replay <;> simp [hrep, Replay.afterRead] at hr
  | deleteKeys ttl =>
    simp only [answer] at h
    split at h
    · cases h
    · cases h
      exact .purge fun k => decide (k.createdAt + ttl < s.db.clock)
  | insertTask id title | recordKey key requestHash taskID | updateTask id patch expect
  | deleteTask id expect | taskExists id | enqueue eventID event | commit =>
    simp only [answer] at h
    split at h
    · exact execute_move hs ‹_› hpre h
    · cases h

theorem serve_move {r : Req} {x : Choice} {rep : Rep r} (hs : Inv s) (hpre : pre p r s)
    (h : serve p r x s = some (rep, s')) : Move p s s' := by
  cases x with
  | ok => exact answer_move hs hpre h
  | fail err aborts =>
    simp only [serve] at h
    split at h
    · cases h
      unfold State.fault
      split
      · exact (shrinks_rollback p s).move rfl fun _ _ h => h
      · exact (shrinks_abort p s aborts).move rfl fun _ _ h => h
    · cases h
  | unknown err =>
    cases r with
    | commit =>
      simp only [serve] at h
      split at h
      · rename_i t cs hp
        split at h
        · cases h
          refine .step (.inr (.suspend hp)) rfl rfl le_rfl
            (fun c hc => .inl (Database.changes_suspend hp ▸ hc))
            (fun cs' hcs => .inr ?_) rfl fun id lost hr => .inl hr
          · obtain rfl : cs = cs' := by simpa using hcs
            exact hpre t cs hp
        · cases h
      · cases h
    | _ => cases h

theorem env_inv {e : Env} (hs : Inv s) (h : env e s = some s') : Inv s' := by
  cases e with
  | tick d =>
    cases h
    exact ⟨⟨hs.wf.locks, hs.wf.committed⟩, hs.sound, hs.seq, hs.justified, hs.committing,
      ⟨hs.recorded.committed, hs.recorded.once, hs.recorded.asked, hs.recorded.ids,
        hs.recorded.fresh, hs.recorded.keys, hs.recorded.replay⟩⟩
  | drop p =>
    simp only [env] at h
    split at h <;> cases h
    · exact (shrinks_close ‹_› rfl).silent.inv hs
    · exact (shrinks_close ‹_› rfl).silent.inv hs
  | land p =>
    simp only [env] at h
    split at h <;> cases h
    rename_i cs hp
    exact inv_commit (t := 0) hs (.inr hp) (hs.committing p cs hp)
  | giveUp p =>
    simp only [env] at h
    split at h <;> cases h
    exact (shrinks_close ‹_› rfl).silent.inv hs

structure Accepted (p : Nat) (call : Call) (s : State) (ids : List String) (n : Notes) : Prop where
  idle : s.db.session p = none
  unused : (s.notes p).call = none
  kept : s.ids ⊆ ids
  fresh : ∀ id title idem ev, call = .create id title idem ev → id ∉ s.ids ∧ id ∈ ids
  asked : n.call = some call
  replay : n.replay = .none
  created : n.created → ∃ e ∈ s.db.tables.history, call.taskID = some e.id

theorem Accepted.update_eq {call c : Call} {ids : List String} {n : Notes}
    (h : Accepted p call s ids n) (hq : (s.notes q).call = some c) :
    Function.update s.notes p n q = s.notes q := by
  have hqp : q ≠ p := by
    rintro rfl
    simp [h.unused] at hq
  exact Function.update_of_ne hqp _ _

theorem accepted {call : Call} (h : accept p call s = some s') :
    ∃ ids n, Accepted p call s ids n ∧ s' = ⟨s.db, s.nextID, ids, Function.update s.notes p n⟩ := by
  simp only [accept] at h
  generalize hany : s.db.tables.history.any _ = created at h
  have hcreated : created → ∃ e ∈ s.db.tables.history, call.taskID = some e.id := by
    rintro rfl
    obtain ⟨e, he, hid⟩ := List.any_eq_true.mp hany
    cases e with
    | created t tx => exact ⟨_, he, of_decide_eq_true hid⟩
    | _ => simp at hid
  split at h
  · cases h
  · rename_i hfree
    obtain ⟨hidle, hunused⟩ : s.db.session p = none ∧ (s.notes p).call = none := by
      simpa using hfree
    cases call with
    | create id title idem ev =>
      simp only at h
      split at h
      · cases h
      · rename_i hid
        cases h
        refine ⟨_, _, ⟨hidle, hunused, subset_cons_self _ _, ?_, rfl, rfl, hcreated⟩, rfl⟩
        intro id' title' idem' ev' heq
        cases heq
        exact ⟨hid, mem_cons_self⟩
    | _ =>
      cases h
      exact ⟨_, _, ⟨hidle, hunused, List.Subset.refl _, by simp, rfl, rfl, hcreated⟩, rfl⟩

theorem Entry.Asked.exists_call {e : Entry} {call : Option Call} (h : e.Asked call) :
    ∃ c, call = some c := by
  cases e with
  | created =>
    obtain ⟨_, _, hc⟩ := h
    exact ⟨_, hc⟩
  | updated =>
    obtain ⟨_, hc⟩ := h
    exact ⟨_, hc⟩
  | deleted =>
    obtain ⟨_, hc⟩ := h
    exact ⟨_, hc⟩

section Accept

variable {call : Call} {ids : List String} {n : Notes}

/-- The ids given out stay apart when a call starts. -/
theorem Accepted.fresh_ids (ha : Accepted p call s ids n) (hr : Recorded s) :
    (∀ q id title idem ev, (Function.update s.notes p n q).call =
      some (.create id title idem ev) → id ∈ ids) ∧
    ∀ q q' id title title' idem idem' ev ev',
      (Function.update s.notes p n q).call = some (.create id title idem ev) →
      (Function.update s.notes p n q').call = some (.create id title' idem' ev') → q = q' := by
  have hmem : ∀ {q id title idem ev}, q ≠ p → (Function.update s.notes p n q).call =
      some (.create id title idem ev) → id ∈ s.ids := by
    intro q id title idem ev hqp hq
    rw [Function.update_of_ne hqp] at hq
    exact hr.ids q id title idem ev hq
  have hself : ∀ {id title idem ev}, (Function.update s.notes p n p).call =
      some (.create id title idem ev) → id ∉ s.ids ∧ id ∈ ids := by
    intro id title idem ev hp
    rw [Function.update_self, ha.asked] at hp
    exact ha.fresh id title idem ev (some.inj hp)
  constructor
  · intro q id title idem ev hq
    by_cases hqp : q = p
    · subst hqp
      exact (hself hq).2
    · exact ha.kept (hmem hqp hq)
  · intro q q' id title title' idem idem' ev ev' hq hq'
    by_cases hqp : q = p
    · subst hqp
      by_contra hne
      exact (hself hq).1 (hmem (Ne.symm hne) hq')
    · by_cases hqp' : q' = p
      · subst hqp'
        exact absurd (hmem hqp hq) (hself hq').1
      · rw [Function.update_of_ne hqp] at hq
        rw [Function.update_of_ne hqp'] at hq'
        exact hr.fresh q q' id title title' idem idem' ev ev' hq hq'

theorem Accepted.recorded (ha : Accepted p call s ids n) (hr : Recorded s) :
    Recorded ⟨s.db, s.nextID, ids, Function.update s.notes p n⟩ := by
  constructor
  · exact hr.committed
  · exact hr.once
  · intro e he
    have hasked := hr.asked e he
    obtain ⟨c, hc⟩ := hasked.exists_call
    show e.Asked (Function.update s.notes p n e.tx).call
    rwa [ha.update_eq hc]
  · exact (ha.fresh_ids hr).1
  · exact (ha.fresh_ids hr).2
  · intro k hk
    refine (hr.keys k hk).mono (fun _ => id) fun q c hq => ?_
    exact (congrArg Notes.call (ha.update_eq hq)).trans hq
  · intro q id lost hq
    have hq : (Function.update s.notes p n q).replay = .pending id lost := hq
    by_cases hqp : q = p
    · subst hqp
      simp [ha.replay] at hq
    · rw [Function.update_of_ne hqp] at hq
      exact hr.replay q id lost hq

end Accept

theorem accept_inv {call : Call} (hs : Inv s) (h : accept p call s = some s') : Inv s' := by
  obtain ⟨ids, n, ha, rfl⟩ := accepted h
  refine ⟨hs.wf, hs.sound, hs.seq, fun q c hc => ?_, hs.committing, ha.recorded hs.recorded⟩
  have hqp : q ≠ p := by
    rintro rfl
    simp [Database.changes, ha.idle] at hc
  have hnotes : Function.update s.notes p n q = s.notes q := Function.update_of_ne hqp _ _
  exact (hs.justified q c hc).mono (fun _ => id) rfl le_rfl (congrArg Notes.call hnotes)

def protocol : Protocol calls where
  inv := Inv
  pre := pre
  serve_inv hs hpre h := (serve_move hs hpre h).inv hs
  env_inv hs h := env_inv hs h
  accept_inv hs h := accept_inv hs h

end GolangBasics.Tasks.Store
