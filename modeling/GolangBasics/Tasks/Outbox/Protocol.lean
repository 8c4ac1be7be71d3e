import GolangBasics.Tasks.Outbox.Invariant

/-! The protocol of the passes: when a pass may publish, stage and commit, and what it can
rely on while other passes and the environment run. -/
namespace GolangBasics.Tasks.Outbox
open Conc List Option

def Inv (orderly : Bool) (s : State) : Prop :=
  Records orderly s.db.tables s.log s.enqueued ∧ Sessions s.db s.log

inductive Move (orderly : Bool) (p : Nat) (s : State) : State → Prop where
  | skip : Move orderly p s s
  | session {db'} (h : s.db.Step apply p db') (htables : db'.tables = s.db.tables)
      (hcommitted : db'.committed = s.db.committed)
      (hstaged : ∀ c ∈ db'.changes p, c ∈ s.db.changes p ∨
        s.db.locks () = some p ∧ Justified s.log p c)
      (hcommitting : ∀ cs, db'.session p = some (.committing cs) → ∀ id, AckedBy s.log p id →
        id ∈ deletes cs) : Move orderly p s { s with db := db' }
  | commit {t cs}
      (hp : s.db.session p = some (.active t cs) ∨ s.db.session p = some (.committing cs))
      (hall : ∀ id, AckedBy s.log p id → id ∈ deletes cs) :
      Move orderly p s { s with db := s.db.commit apply p cs }
  | sent {t cs id} (hp : s.db.session p = some (.active t cs)) (hlock : s.db.locks () = some p)
      (hrow : ∃ r ∈ s.db.tables, r.id = id) (hnew : ¬ AckedBy s.log p id) (result : Option Err)
      (hord : orderly → ∀ a ∈ s.enqueued, ∀ b ∈ s.enqueued, b.id = id →
        a.aggregateID = b.aggregateID → a.id < b.id → Settled s.log a.id) :
      Move orderly p s { s with log := ⟨p, id, result⟩ :: s.log }

variable {orderly : Bool} {p q : Nat} {s s' : State}

theorem Move.inv (h : Move orderly p s s') (hs : Inv orderly s) : Inv orderly s' := by
  cases h with
  | skip => exact hs
  | session h htables hcommitted hstaged hcommitting =>
    refine ⟨?_, sessions_step hs.2 h htables hcommitted hstaged hcommitting⟩
    rw [htables]
    exact hs.1
  | @commit t cs hp hall =>
    have hjust : ∀ c ∈ cs, Justified s.log p c :=
      Database.changes_of_open hp ▸ hs.2.justified p
    exact ⟨records_commit hs.1 hjust, sessions_commit hs.2 hp hall⟩
  | sent hp hlock hrow hnew result hord =>
    exact ⟨records_sent hs.1 hrow result hord, sessions_sent hs.2 hp hlock hrow hnew result⟩

inductive Cleared (p : Nat) (s : State) : State → Prop where
  | same : Cleared p s s
  | step {db'} (h : s.db.Step apply p db') (htables : db'.tables = s.db.tables)
      (hcommitted : db'.committed = s.db.committed) (hnone : db'.changes p = [])
      (hnot : ∀ cs, db'.session p ≠ some (.committing cs)) : Cleared p s { s with db := db' }

theorem cleared_abort (p : Nat) (s : State) (aborts : Bool) : Cleared p s (s.abort p aborts) := by
  unfold State.abort
  split
  · split
    · exact .step (.fail ‹_›) rfl rfl (by simp [Database.changes]) (by simp)
    · exact .same
  · exact .same

theorem cleared_close {x y : Session Change} (h : s.db.session p = some x) (hx : x.isOpen)
    (hy : y.isOpen = false) : Cleared p s { s with db := s.db.close p y } := by
  have hended : (s.db.close p y).Ended p := ⟨y, Database.put_session_self, hy⟩
  refine .step (.close h hx hy) rfl rfl (Database.changes_of_ended hended) fun cs hcs => ?_
  obtain rfl : y = .committing cs := some.inj (Database.put_session_self.symm.trans hcs)
  simp [Session.isOpen] at hy

theorem cleared_rollback (p : Nat) (s : State) : Cleared p s (s.close p) := by
  unfold State.close
  split
  · exact cleared_close ‹_› rfl rfl
  · exact cleared_close ‹_› rfl rfl
  · exact .same

theorem cleared_start (h : s.db.session p = none) :
    Cleared p s { s with db := s.db.start p } :=
  .step (.start h) rfl rfl (by simp [Database.start, Database.changes]) (by simp [Database.start])

theorem Cleared.move (h : Cleared p s s') : Move orderly p s s' := by
  cases h with
  | same => exact .skip
  | step h htables hcommitted hnone hnot =>
    exact .session h htables hcommitted (by simp [hnone]) fun cs hcs => absurd hcs (hnot cs)

variable {start : Nat} {cs : List Change}

theorem move_stage {c : Change} (h : s.db.session p = some (.active start cs))
    (hlock : s.db.locks () = some p) (hc : Justified s.log p c) :
    Move orderly p s (s.stage p start cs c) := by
  refine .session (.write [] c h (by simp)) rfl rfl (fun d hd => ?_) (by simp [Database.write])
  rcases Database.mem_changes_write h hd with hd | rfl
  · exact .inl hd
  · exact .inr ⟨hlock, hc⟩

theorem move_lock (h : s.db.session p = some (.active start cs)) (hfree : s.db.locks () = none) :
    Move orderly p s { s with db := s.db.acquire p [()] } := by
  refine .session (.acquire [()] h (by simp [hfree])) rfl rfl (fun c hc => .inl hc)
    fun cs' hcs => ?_
  have hcs : s.db.session p = some (.committing cs') := hcs
  simp [h] at hcs

theorem move_suspend (h : s.db.session p = some (.active start cs))
    (hall : ∀ id, AckedBy s.log p id → id ∈ deletes cs) :
    Move orderly p s { s with db := s.db.put p (.committing cs) } := by
  refine .session (.suspend h) rfl rfl (fun c hc => .inl (Database.changes_suspend h ▸ hc))
    fun cs' hcs => ?_
  obtain rfl : cs = cs' := by simpa using hcs
  exact hall

def pre (orderly : Bool) (p : Nat) (r : Req) (s : State) : Prop :=
  match r with
  | .send id _ => s.db.session p = some .crashed ∨
      (∃ t cs, s.db.session p = some (.active t cs)) ∧ s.db.locks () = some p ∧
      (∃ r ∈ s.db.tables, r.id = id) ∧ ¬ AckedBy s.log p id ∧
      (orderly → ∀ a ∈ s.enqueued, ∀ b ∈ s.enqueued, b.id = id → a.aggregateID = b.aggregateID →
        a.id < b.id → Settled s.log a.id)
  | .recordRejection id _ _ => ∀ t cs, s.db.session p = some (.active t cs) →
      s.db.locks () = some p ∧ Rejected s.log id
  | .recordFailure _ _ => ∀ t cs, s.db.session p = some (.active t cs) → s.db.locks () = some p
  | .deletePublished ids => ∀ t cs, s.db.session p = some (.active t cs) →
      s.db.locks () = some p ∧ ∀ id ∈ ids, AckedBy s.log p id
  | .commit => ∀ t cs, s.db.session p = some (.active t cs) → ∀ id, AckedBy s.log p id →
      id ∈ deletes cs
  | _ => True

/-- What a request can do to the shared state, as far as the request tells. -/
inductive Effect (p : Nat) (s : State) : Req → State → Prop where
  | skip {r} : Effect p s r s
  | abort {r} (aborts : Bool) : Effect p s r (s.abort p aborts)
  | close {r} : Effect p s r (s.close p)
  | start (h : s.db.session p = none) : Effect p s .beginTx { s with db := s.db.start p }
  | lock {t cs} (h : s.db.session p = some (.active t cs)) (hfree : s.db.locks () = none) :
      Effect p s .tryLock { s with db := s.db.acquire p [()] }
  | send {id msg} (result : Option Err) :
      Effect p s (.send id msg) { s with log := ⟨p, id, result⟩ :: s.log }
  | rejection {id e b t cs} (h : s.db.session p = some (.active t cs)) (n : Nat) :
      Effect p s (.recordRejection id e b) (s.stage p t cs (.rejection id e n))
  | failure {id e t cs} (h : s.db.session p = some (.active t cs)) :
      Effect p s (.recordFailure id e) (s.stage p t cs (.failure id e))
  | delete {ids t cs} (h : s.db.session p = some (.active t cs)) :
      Effect p s (.deletePublished ids) (s.stage p t cs (.delete ids))
  | commit {t cs} (h : s.db.session p = some (.active t cs)) :
      Effect p s .commit { s with db := s.db.commit apply p cs }
  | suspend {t cs} (h : s.db.session p = some (.active t cs)) :
      Effect p s .commit { s with db := s.db.put p (.committing cs) }

theorem answer_effect {r : Req} {x : Choice} {rep : Rep r}
    (h : answer orderly p s r x = some (rep, s')) : Effect p s r s' := by
  cases r with
  | beginTx =>
    cases x <;> simp only [answer] at h <;> try cases h
    · split at h
      · cases h
        exact .start ‹_›
      · cases h
    · exact .skip
  | tryLock =>
    cases x <;> simp only [answer] at h <;> try cases h
    · split at h
      · cases h
        exact .lock ‹_› ‹_›
      · cases h
        exact .skip
      · cases h
    · exact .abort _
  | selectBatch limit maxAttempts =>
    cases x <;> simp only [answer] at h <;> try cases h
    · exact .abort _
    · exact .skip
    · split at h
      · split at h
        · cases h
        · cases h
          exact .skip
      · cases h
  | ctxErr =>
    cases x <;> simp only [answer] at h <;> cases h
    exact .skip
  | send id msg =>
    cases x <;> simp only [answer] at h <;> cases h
    exact .send _
  | recordRejection id lastError backoff =>
    cases x <;> simp only [answer] at h <;> try cases h
    · split at h
      · split at h
        · split at h
          · cases h
            exact .rejection ‹_› _
          · cases h
            exact .abort _
        · cases h
          exact .skip
      · cases h
    · exact .abort _
  | recordFailure id lastError =>
    cases x <;> simp only [answer] at h <;> try cases h
    · split at h
      · cases h
        exact .failure ‹_›
      · cases h
    · exact .abort _
  | deletePublished ids =>
    cases x <;> simp only [answer] at h <;> try cases h
    · split at h
      · cases h
        exact .delete ‹_›
      · cases h
    · exact .abort _
  | commit =>
    cases x <;> simp only [answer] at h <;> try cases h
    · split at h
      · cases h
        exact .commit ‹_›
      · cases h
    · exact .close
    · split at h
      · cases h
        exact .suspend ‹_›
      · cases h
  | rollback =>
    cases x <;> simp only [answer] at h <;> try cases h
    · exact .close
    · exact .abort _

theorem serve_effect {r : Req} {x : Choice} {rep : Rep r}
    (h : serve orderly p r x s = some (rep, s')) :
    s.db.session p ≠ some .crashed ∧ Effect p s r s' := by
  unfold serve at h
  split at h
  · cases h
  · exact ⟨‹_›, answer_effect h⟩

theorem serve_move {r : Req} {x : Choice} {rep : Rep r} (hpre : pre orderly p r s)
    (h : serve orderly p r x s = some (rep, s')) : Move orderly p s s' := by
  obtain ⟨hlive, heffect⟩ := serve_effect h
  cases heffect with
  | skip => exact .skip
  | abort aborts => exact (cleared_abort p s aborts).move
  | close => exact (cleared_rollback p s).move
  | start hnone => exact (cleared_start hnone).move
  | lock hp hfree => exact move_lock hp hfree
  | send result =>
    rcases hpre with hcrash | ⟨⟨t, cs, hp⟩, hlock, hrow, hnew, hord⟩
    · exact absurd hcrash hlive
    · exact .sent hp hlock hrow hnew result hord
  | rejection hp n => exact move_stage hp (hpre _ _ hp).1 (hpre _ _ hp).2
  | failure hp => exact move_stage hp (hpre _ _ hp) trivial
  | delete hp => exact move_stage hp (hpre _ _ hp).1 (hpre _ _ hp).2
  | commit hp => exact .commit (.inl hp) (hpre _ _ hp)
  | suspend hp => exact move_suspend hp (hpre _ _ hp)

inductive Happens (orderly : Bool) (s : State) : State → Prop where
  | enqueue {x : Pending} (hfresh : x.id ∉ s.enqueued.map Pending.id)
      (hlast : orderly → ∀ y ∈ s.enqueued, y.aggregateID = x.aggregateID → ¬ x.id < y.id) :
      Happens orderly s { s with db := { s.db with tables := s.db.tables ++ [Row.fresh x] }
                                 enqueued := x :: s.enqueued }
  | tick (d : Nat) : Happens orderly s { s with db := { s.db with clock := s.db.clock + d } }
  | ended {p x y} (h : s.db.session p = some x) (hx : x.isOpen) (hy : y.isOpen = false)
      (hcrash : ∀ t cs, x = .active t cs → y = .crashed) :
      Happens orderly s { s with db := s.db.close p y }
  | land {p : Nat} {cs : List Change} (h : s.db.session p = some (.committing cs)) :
      Happens orderly s { s with db := s.db.commit apply p cs }

theorem env_happens {e : Env} (h : env orderly e s = some s') : Happens orderly s s' := by
  cases e with
  | enqueue x =>
    simp only [env] at h
    split_ifs at h with hbad
    cases h
    exact .enqueue (fun hin => hbad (.inl hin))
      fun ho y hy htask hlt => hbad (.inr ⟨ho, y, hy, htask, hlt⟩)
  | tick d =>
    cases h
    exact .tick d
  | crash p =>
    simp only [env] at h
    split at h <;> cases h <;> exact .ended ‹_› rfl rfl fun _ _ _ => rfl
  | drop p | giveUp p =>
    simp only [env] at h
    split at h <;> cases h
    exact .ended ‹_› rfl rfl (by simp)
  | land p =>
    simp only [env] at h
    split at h <;> cases h
    exact .land ‹_›

theorem row_ne_of_fresh (hs : Inv orderly s) {x : Pending}
    (hfresh : x.id ∉ s.enqueued.map Pending.id) : ∀ y ∈ s.log, y.row ≠ x.id := by
  intro y hy heq
  obtain ⟨z, hz, hid⟩ := hs.1.sent y hy
  exact hfresh (List.mem_map.mpr ⟨z, hz, hid.trans heq⟩)

theorem move_land (hs : Inv orderly s) (h : s.db.session p = some (.committing cs)) :
    Move orderly p s { s with db := s.db.commit apply p cs } :=
  .commit (t := 0) (.inr h) (hs.2.committing p cs h)

theorem env_inv {e : Env} (hs : Inv orderly s) (h : env orderly e s = some s') :
    Inv orderly s' := by
  cases env_happens h with
  | enqueue hfresh hlast =>
    exact ⟨records_enqueue hs.1 hfresh hlast, sessions_enqueue hs.2 (row_ne_of_fresh hs hfresh)⟩
  | tick d => exact ⟨hs.1, sessions_tick hs.2 _⟩
  | ended hp hx hy => exact (cleared_close hp hx hy).move.inv hs
  | land hp => exact (move_land hs hp).inv hs

def protocol (orderly : Bool) : Protocol (passes orderly) where
  inv := Inv orderly
  pre := pre orderly
  serve_inv hs hpre h := (serve_move hpre h).inv hs
  env_inv hs h := env_inv hs h
  accept_inv hs h := by
    simp only [passes] at h
    split_ifs at h
    cases h
    exact hs

structure Kept (orderly : Bool) (q : Nat) (s s' : State) : Prop where
  log : ∃ new, s'.log = new ++ s.log ∧ ∀ y ∈ new, y.pass ≠ q
  enqueued : ∃ new, s'.enqueued = new ++ s.enqueued ∧ (orderly → ∀ a ∈ new, ∀ b ∈ s.enqueued,
    a.aggregateID = b.aggregateID → b.id < a.id)
  idle : s.db.session q = none → s'.db.session q = none
  active : ∀ t cs, s.db.session q = some (.active t cs) →
    s'.db.session q = some (.active t cs) ∨ s'.db.session q = some .crashed
  crashed : s.db.session q = some .crashed → s'.db.session q = some .crashed
  back : ∀ t cs, s'.db.session q = some (.active t cs) → s.db.session q = some (.active t cs)
  lock : ∀ t cs, s'.db.session q = some (.active t cs) → s.db.locks () = some q →
    s'.db.locks () = some q
  rows : s.db.locks () = some q → ∀ t cs, s'.db.session q = some (.active t cs) →
    ∀ r ∈ s.db.tables, r ∈ s'.db.tables

theorem kept_of_same (hlog : ∃ new, s'.log = new ++ s.log ∧ ∀ y ∈ new, y.pass ≠ q)
    (henq : s'.enqueued = s.enqueued) (hsession : s'.db.session q = s.db.session q)
    (hlock : s.db.locks () = some q → s'.db.locks () = some q)
    (hrows : s.db.locks () = some q → s'.db.tables = s.db.tables) : Kept orderly q s s' := by
  refine ⟨hlog, ⟨[], by simp [henq], by simp⟩, ?_, ?_, ?_, ?_, fun _ _ _ => hlock,
    fun hl _ _ _ r hr => by rwa [hrows hl]⟩
  all_goals rw [hsession]
  · exact id
  · exact fun _ _ => .inl
  · exact id
  · exact fun _ _ => id

theorem kept_move (hs : Inv orderly s) (hpq : p ≠ q) (h : Move orderly p s s') :
    Kept orderly q s s' := by
  cases h with
  | skip => exact kept_of_same ⟨[], rfl, by simp⟩ rfl rfl id fun _ => rfl
  | session h htables =>
    exact kept_of_same ⟨[], rfl, by simp⟩ rfl (h.session_of_ne hpq.symm)
      (h.locks_of_ne hpq.symm).mpr fun _ => htables
  | @commit t cs hp hall =>
    have hstep : s.db.Step apply p (s.db.commit apply p cs) := .commit hp
    refine kept_of_same ⟨[], rfl, by simp⟩ rfl (hstep.session_of_ne hpq.symm)
      (hstep.locks_of_ne hpq.symm).mpr fun hl => ?_
    -- the lock is with `q`, so `p` has staged nothing
    have hcs : s.db.changes p = cs := Database.changes_of_open hp
    have hnil : cs = [] := by
      by_contra hne
      have hlp := hs.2.staged p (by rwa [hcs])
      exact hpq (some.inj (hlp.symm.trans hl))
    simp [hnil, Database.commit, Database.applyAll]
  | sent hp hlock hrow hnew result =>
    exact kept_of_same ⟨[_], rfl, by simpa using hpq⟩ rfl rfl id fun _ => rfl

/-- The session of `q` is over; only a crash ends an active one. -/
theorem kept_of_ended {x y : Session Change} (hx : s.db.session q = some x) (hopen : x.isOpen)
    (hy : s'.db.session q = some y) (hended : y.isOpen = false)
    (hcrash : ∀ t cs, x = .active t cs → y = .crashed) (hlog : s'.log = s.log)
    (henq : s'.enqueued = s.enqueued) : Kept orderly q s s' := by
  have hnot : ∀ t cs, s'.db.session q ≠ some (.active t cs) := by
    intro t cs h
    obtain rfl : y = .active t cs := some.inj (hy.symm.trans h)
    simp [Session.isOpen] at hended
  refine ⟨⟨[], by simp [hlog], by simp⟩, ⟨[], by simp [henq], by simp⟩, ?_, fun t cs h => ?_, ?_,
    fun t cs h => absurd h (hnot t cs), fun t cs h => absurd h (hnot t cs),
    fun _ t cs h => absurd h (hnot t cs)⟩
  · simp [hx]
  · obtain rfl : x = .active t cs := some.inj (hx.symm.trans h)
    right
    rw [hy, hcrash t cs rfl]
  · intro h
    obtain rfl : x = .crashed := some.inj (hx.symm.trans h)
    simp [Session.isOpen] at hopen

theorem kept_env (hs : Inv orderly s) {e : Env} (h : env orderly e s = some s') :
    Kept orderly q s s' := by
  cases env_happens h with
  | @enqueue x hfresh hlast =>
    have hvis : orderly → ∀ a ∈ [x], ∀ b ∈ s.enqueued, a.aggregateID = b.aggregateID →
        b.id < a.id := by
      intro ho a ha b hb htask
      obtain rfl := mem_singleton.mp ha
      have hne : b.id ≠ a.id := fun heq => hfresh (List.mem_map.mpr ⟨b, hb, heq⟩)
      have hge : ¬ a.id < b.id := hlast ho b hb htask.symm
      omega
    exact ⟨⟨[], rfl, by simp⟩, ⟨[x], rfl, hvis⟩, id, fun _ _ => .inl, id, fun _ _ => id,
      fun _ _ _ => id, fun _ _ _ _ r hr => mem_append_left _ hr⟩
  | tick d => exact kept_of_same ⟨[], rfl, by simp⟩ rfl rfl id fun _ => rfl
  | @ended p x y hp hx hy hcrash =>
    by_cases hpq : p = q
    · subst hpq
      exact kept_of_ended hp hx Database.put_session_self hy hcrash rfl rfl
    · exact kept_move hs hpq (cleared_close hp hx hy).move
  | @land p cs hp =>
    by_cases hpq : p = q
    · subst hpq
      exact kept_of_ended hp rfl Database.put_session_self rfl (by simp) rfl rfl
    · exact kept_move hs hpq (move_land hs hp)

theorem kept_of_moves (h : (protocol orderly).Moves q s s') : Kept orderly q s s' := by
  cases h with
  | serve hpq hinv hpre h => exact kept_move hinv hpq (serve_move hpre h)
  | env hinv h => exact kept_env hinv h
  | accept hpq hinv h =>
    simp only [passes] at h
    split_ifs at h
    cases h
    exact kept_of_same ⟨[], rfl, by simp⟩ rfl rfl id fun _ => rfl

end GolangBasics.Tasks.Outbox
