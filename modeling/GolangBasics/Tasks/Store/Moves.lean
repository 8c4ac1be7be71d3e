import GolangBasics.Tasks.Store.Records

/-! What one request may do to the shared state, and that the invariant survives it. -/
namespace GolangBasics.Tasks.Store
open Conc

variable {p q : Nat} {s s' : State} {c : Change}

inductive Move (p : Nat) (s : State) : State → Prop where
  | step {db' : Database Nat Lock Change Tables} {next : Nat} {n : Notes}
      (hdb : db' = s.db ∨ s.db.Step Change.apply p db') (htables : db'.tables = s.db.tables)
      (hcommitted : db'.committed = s.db.committed) (hnext : s.nextID ≤ next)
      (hchanges : ∀ c ∈ db'.changes p, c ∈ s.db.changes p ∨
        Justified ⟨db', next, s.ids, s.notes⟩ p c)
      (hcommitting : ∀ cs, db'.session p = some (.committing cs) →
        s.db.session p = some (.committing cs) ∨ Complete cs)
      (hcall : n.call = (s.notes p).call)
      (hreplay : ∀ id lost, n.replay = .pending id lost → (s.notes p).replay = .pending id lost ∨
        lost = false ∧ (rowOf id s.db.tables.tasks).isSome) :
      Move p s ⟨db', next, s.ids, Function.update s.notes p n⟩
  | commit {t cs}
      (hp : s.db.session p = some (.active t cs) ∨ s.db.session p = some (.committing cs))
      (hc : Complete cs) : Move p s (s.commit p cs)
  | purge (old : KeyRow → Bool) : Move p s { s with db := { s.db with tables :=
      { s.db.tables with keys := s.db.tables.keys.filter fun k => !old k } } }

theorem call_update {n : Notes} (hcall : n.call = (s.notes p).call) (r : Nat) :
    (Function.update s.notes p n r).call = (s.notes r).call := by
  by_cases hr : r = p
  · subst hr
    simpa using hcall
  · rw [Function.update_of_ne hr]

section Step

variable {db' : Database Nat Lock Change Tables} {next : Nat} {n : Notes}

theorem justified_step (hs : Inv s) (hdb : db' = s.db ∨ s.db.Step Change.apply p db')
    (htables : db'.tables = s.db.tables) (hnext : s.nextID ≤ next)
    (hchanges : ∀ c ∈ db'.changes p, c ∈ s.db.changes p ∨
      Justified ⟨db', next, s.ids, s.notes⟩ p c) (hcall : n.call = (s.notes p).call)
    {c : Change} (hc : c ∈ db'.changes q) :
    Justified ⟨db', next, s.ids, Function.update s.notes p n⟩ q c := by
  have hold : c ∈ s.db.changes q → (∀ k, s.db.locks k = some q → db'.locks k = some q) →
      Justified ⟨db', next, s.ids, Function.update s.notes p n⟩ q c :=
    fun hin hlocks => (hs.justified q c hin).mono hlocks htables hnext (call_update hcall q)
  by_cases hqp : q = p
  · subst hqp
    rcases hchanges c hc with hin | hjust
    · refine hold hin fun k hk => ?_
      rcases hdb with rfl | hstep
      · exact hk
      · rcases hstep.locks_self hk with hk' | hended
        · exact hk'
        · rw [Database.changes_of_ended hended] at hc
          simp at hc
    · exact hjust.mono (fun _ => id) rfl le_rfl (call_update hcall q)
  · rcases hdb with rfl | hstep
    · exact hold hc fun _ => id
    · rw [Database.changes_congr (hstep.session_of_ne hqp)] at hc
      exact hold hc fun k hk => (hstep.locks_of_ne hqp).mpr hk

theorem recorded_step (hs : Inv s) (htables : db'.tables = s.db.tables)
    (hcommitted : db'.committed = s.db.committed) (hcall : n.call = (s.notes p).call)
    (hreplay : ∀ id lost, n.replay = .pending id lost → (s.notes p).replay = .pending id lost ∨
      lost = false ∧ (rowOf id s.db.tables.tasks).isSome) :
    Recorded ⟨db', next, s.ids, Function.update s.notes p n⟩ := by
  have hr := hs.recorded
  have hcalls := call_update hcall
  constructor
  · simpa only [htables, hcommitted] using hr.committed
  · simpa only [htables] using hr.once
  · intro e he
    simp only [htables] at he
    rw [hcalls]
    exact hr.asked e he
  · intro q id title idem ev hq
    rw [hcalls] at hq
    exact hr.ids q id title idem ev hq
  · intro q q' id title title' idem idem' ev ev' hq hq'
    rw [hcalls] at hq hq'
    exact hr.fresh q q' id title title' idem idem' ev ev' hq hq'
  · intro k hk
    simp only [htables] at hk
    refine (hr.keys k hk).mono (fun e he => ?_) fun q call hq => (hcalls q).trans hq
    simpa only [htables] using he
  · intro q id lost hq
    have hq : (Function.update s.notes p n q).replay = .pending id lost := hq
    simp only [htables]
    by_cases hqp : q = p
    · subst hqp
      rw [Function.update_self] at hq
      rcases hreplay id lost hq with hq | ⟨rfl, hsome⟩
      · exact hr.replay q id lost hq
      · obtain ⟨r, hrow⟩ := Option.isSome_iff_exists.mp hsome
        refine ⟨fun hnil => ?_, by simp [hrow]⟩
        have hlive := (hs.sound.lives_of_row hrow).eq_unborn hnil
        cases hlive
    · rw [Function.update_of_ne hqp] at hq
      exact hr.replay q id lost hq

end Step

theorem inv_purge (hs : Inv s) (old : KeyRow → Bool) :
    Inv { s with db := { s.db with tables :=
      { s.db.tables with keys := s.db.tables.keys.filter fun k => !old k } } } := by
  have hsub : (s.db.tables.keys.filter fun k => !old k).Sublist s.db.tables.keys :=
    List.filter_sublist
  have hr := hs.recorded
  constructor
  · exact ⟨hs.wf.locks, hs.wf.committed⟩
  · exact ⟨hs.sound.life, hs.sound.events, hs.sound.ordered,
      hs.sound.keyed.sublist (hsub.map _), fun k hk => hs.sound.owners k (hsub.subset hk)⟩
  · exact hs.seq
  · intro q c hc
    have hjust := hs.justified q c hc
    cases c with
    | task e =>
      obtain ⟨htx, hlock, hfits, hasked⟩ := hjust
      refine ⟨htx, hlock, ?_, hasked⟩
      cases e <;> exact hfits
    | insertKey k =>
      obtain ⟨hlock, hnew, hasked⟩ := hjust
      exact ⟨hlock, fun k' hk' => hnew k' (hsub.subset hk'), hasked⟩
    | enqueue row => exact hjust
  · exact hs.committing
  · exact ⟨hr.committed, hr.once, hr.asked, hr.ids, hr.fresh,
      fun k hk => (hr.keys k (hsub.subset hk)).mono (fun _ => id) fun _ _ => id, hr.replay⟩

theorem Move.inv (h : Move p s s') (hs : Inv s) : Inv s' := by
  cases h with
  | @step db' next n hdb htables hcommitted hnext hchanges hcommitting hcall hreplay =>
    constructor
    · rcases hdb with rfl | hstep
      · exact hs.wf
      · exact hstep.wf hs.wf
    · exact htables ▸ hs.sound
    · intro o ho
      have ho : o ∈ db'.tables.outbox := ho
      rw [htables] at ho
      exact (hs.seq o ho).trans_le hnext
    · exact fun q c hc => justified_step hs hdb htables hnext hchanges hcall hc
    · intro q cs hq
      have hq : db'.session q = some (.committing cs) := hq
      by_cases hqp : q = p
      · subst hqp
        rcases hcommitting cs hq with hq | hc
        · exact hs.committing q cs hq
        · exact hc
      · rcases hdb with rfl | hstep
        · exact hs.committing q cs hq
        · rw [hstep.session_of_ne hqp] at hq
          exact hs.committing q cs hq
    · exact recorded_step hs htables hcommitted hcall hreplay
  | commit hp hc => exact inv_commit hs hp hc
  | purge old => exact inv_purge hs old

/-- The session of `p` loses its changes or keeps them; nothing is staged or committed. -/
structure Shrinks (p : Nat) (db db' : Database Nat Lock Change Tables) : Prop where
  step : db' = db ∨ db.Step Change.apply p db'
  tables : db'.tables = db.tables
  committed : db'.committed = db.committed
  changes : ∀ c ∈ db'.changes p, c ∈ db.changes p
  committing : ∀ cs, db'.session p = some (.committing cs) → db.session p = some (.committing cs)

theorem shrinks_refl (p : Nat) (db : Database Nat Lock Change Tables) : Shrinks p db db :=
  ⟨.inl rfl, rfl, rfl, fun _ => id, fun _ => id⟩

theorem shrinks_close {x : Session Change} (h : s.db.session p = some x) (hx : x.isOpen) :
    Shrinks p s.db (s.db.close p .closed) := by
  have hclosed : (s.db.close p .closed).session p = some .closed := Database.put_session_self
  refine ⟨.inr (.close h hx rfl), rfl, rfl, fun c hc => ?_, by simp [hclosed]⟩
  rw [Database.changes_of_ended ⟨_, hclosed, rfl⟩] at hc
  simp at hc

theorem shrinks_rollback (p : Nat) (s : State) : Shrinks p s.db (s.close p).db := by
  simp only [State.close]
  split
  · exact shrinks_close ‹_› rfl
  · exact shrinks_close ‹_› rfl
  · exact shrinks_refl p s.db

theorem shrinks_abort (p : Nat) (s : State) (aborts : Bool) :
    Shrinks p s.db (s.abort p aborts).db := by
  simp only [State.abort]
  split
  · split
    · rename_i h _
      refine ⟨.inr (.fail h), rfl, rfl, fun c hc => ?_, by simp⟩
      simp [Database.changes] at hc
    · exact shrinks_refl p s.db
  · exact shrinks_refl p s.db

theorem Shrinks.move {db' : Database Nat Lock Change Tables} {n : Notes} (h : Shrinks p s.db db')
    (hcall : n.call = (s.notes p).call)
    (hreplay : ∀ id lost, n.replay = .pending id lost → (s.notes p).replay = .pending id lost) :
    Move p s ⟨db', s.nextID, s.ids, Function.update s.notes p n⟩ :=
  .step h.step h.tables h.committed le_rfl (fun c hc => .inl (h.changes c hc))
    (fun cs hcs => .inl (h.committing cs hcs)) hcall fun id lost hp => .inl (hreplay id lost hp)

theorem move_silent {db' : Database Nat Lock Change Tables} {next : Nat}
    (h : Move p s ⟨db', next, s.ids, Function.update s.notes p (s.notes p)⟩) :
    Move p s { s with db := db', nextID := next } := by
  rwa [Function.update_eq_self] at h

theorem Shrinks.silent {db' : Database Nat Lock Change Tables} (h : Shrinks p s.db db') :
    Move p s { s with db := db' } :=
  move_silent (h.move rfl fun _ _ => id)

/-- A statement of an active transaction that writes, under locks nobody else holds. -/
theorem move_write {t : Nat} {cs : List Change} {ks : List Lock} {n : Notes} {next : Nat}
    (h : s.db.session p = some (.active t cs)) (hks : s.free p ks) (hnext : s.nextID ≤ next)
    (hc : Justified ⟨s.db.write p t cs ks c, next, s.ids, s.notes⟩ p c)
    (hcall : n.call = (s.notes p).call) (hreplay : n.replay = (s.notes p).replay) :
    Move p s ⟨s.db.write p t cs ks c, next, s.ids, Function.update s.notes p n⟩ := by
  have hlocks : ∀ k ∈ ks, s.db.locks k = none ∨ s.db.locks k = some p := by
    simpa [State.free] using hks
  refine .step (.inr (.write ks c h hlocks)) rfl rfl hnext (fun d hd => ?_)
    (by simp [Database.write]) hcall fun id lost hp => .inl (hreplay ▸ hp)
  rcases Database.mem_changes_write h hd with hd | rfl
  · exact .inl hd
  · exact .inr hc

end GolangBasics.Tasks.Store
