import GolangBasics.Tasks.Outbox.Protocol

/-! What a pass knows between its statements, and what each statement does to it. -/
namespace GolangBasics.Tasks.Outbox
open Conc Conc.Protocol List

variable {orderly : Bool} {p : Nat} {s s' : State}

/-- The pass has got acknowledgements for exactly the rows of `done`. -/
def HasAcked (p : Nat) (done : List Nat) (s : State) : Prop :=
  ∀ id, AckedBy s.log p id ↔ id ∈ done

def Holds (p : Nat) (s : State) : Prop :=
  ∀ t cs, s.db.session p = some (.active t cs) → s.db.locks () = some p

/-- Every row of the batch is in the table, and what comes before it in its task is
settled or in the batch too. -/
def Ready (orderly : Bool) (batch : List Pending) (s : State) : Prop :=
  ∀ x ∈ batch, x ∈ s.enqueued ∧ (∃ r ∈ s.db.tables, r.id = x.id) ∧
    (orderly → ∀ a ∈ s.enqueued, a.aggregateID = x.aggregateID → a.id < x.id →
      Settled s.log a.id ∨ ∃ z ∈ batch, z.id = a.id)

/-- The pass works on the batch as the only one, or has crashed. -/
def Leads (orderly : Bool) (p : Nat) (batch : List Pending) (s : State) : Prop :=
  s.db.session p = some .crashed ∨
    (∃ t cs, s.db.session p = some (.active t cs)) ∧ s.db.locks () = some p ∧
      Ready orderly batch s

theorem stable_hasAcked (done : List Nat) : (protocol orderly).Stable p (HasAcked p done) := by
  intro s s' hm h id
  obtain ⟨new, hlog, hnew⟩ := (kept_of_moves hm).log
  rw [← h id, hlog]
  constructor
  · rintro ⟨y, hy, hpass, hrest⟩
    rcases mem_append.mp hy with hy | hy
    · exact absurd hpass (hnew y hy)
    · exact ⟨y, hy, hpass, hrest⟩
  · exact fun h => h.mono (subset_append_right _ _)

theorem stable_holds : (protocol orderly).Stable p (Holds p) := by
  intro s s' hm h t cs hactive
  have hk := kept_of_moves hm
  exact hk.lock t cs hactive (h t cs (hk.back t cs hactive))

theorem stable_leads (batch : List Pending) :
    (protocol orderly).Stable p (Leads orderly p batch) := by
  intro s s' hm h
  have hk := kept_of_moves hm
  rcases h with hcrash | ⟨⟨t, cs, hactive⟩, hlock, hready⟩
  · exact .inl (hk.crashed hcrash)
  · rcases hk.active t cs hactive with hactive' | hcrash
    · refine .inr ⟨⟨t, cs, hactive'⟩, hk.lock t cs hactive' hlock, fun x hx => ?_⟩
      obtain ⟨hx', ⟨r, hr, hid⟩, hbefore⟩ := hready x hx
      obtain ⟨newLog, hlog, -⟩ := hk.log
      obtain ⟨new, henq, hvis⟩ := hk.enqueued
      refine ⟨?_, ⟨r, hk.rows hlock t cs hactive' r hr, hid⟩, fun ho a ha htask hlt => ?_⟩
      · rw [henq]
        exact mem_append_right _ hx'
      · rw [henq] at ha
        rw [hlog]
        rcases mem_append.mp ha with ha | ha
        · have := hvis ho a ha x hx' htask
          omega
        · exact (hbefore ho a ha htask hlt).imp_left fun h => h.mono (subset_append_right _ _)
    · exact .inl hcrash

structure Quiet (p : Nat) (s s' : State) : Prop where
  log : s'.log = s.log
  enqueued : s'.enqueued = s.enqueued
  tables : s'.db.tables = s.db.tables
  locks : s'.db.locks = s.db.locks
  active : ∀ t cs, s'.db.session p = some (.active t cs) →
    ∃ cs', s.db.session p = some (.active t cs')

theorem quiet_refl (p : Nat) (s : State) : Quiet p s s :=
  ⟨rfl, rfl, rfl, rfl, fun _ cs h => ⟨cs, h⟩⟩

theorem quiet_abort (p : Nat) (s : State) (aborts : Bool) : Quiet p s (s.abort p aborts) := by
  unfold State.abort
  split
  · split
    · exact ⟨rfl, rfl, rfl, rfl, by simp⟩
    · exact quiet_refl p s
  · exact quiet_refl p s

theorem quiet_stage {start : Nat} {cs : List Change} (h : s.db.session p = some (.active start cs))
    (c : Change) : Quiet p s (s.stage p start cs c) := by
  refine ⟨rfl, rfl, rfl, rfl, fun t cs' hs => ?_⟩
  have hs : (s.db.put p (.active start (cs ++ [c]))).session p = some (.active t cs') := hs
  obtain ⟨rfl, -⟩ : start = t ∧ cs ++ [c] = cs' := by simpa using hs
  exact ⟨cs, h⟩

theorem Quiet.hasAcked (h : Quiet p s s') {done : List Nat} (hs : HasAcked p done s) :
    HasAcked p done s' := by
  unfold HasAcked
  rw [h.log]
  exact hs

theorem Quiet.holds (h : Quiet p s s') (hs : Holds p s) : Holds p s' := by
  intro t cs hactive
  obtain ⟨cs', hactive'⟩ := h.active t cs hactive
  rw [h.locks]
  exact hs t cs' hactive'

variable {batch : List Pending}

theorem Quiet.ready (h : Quiet p s s') (hs : Ready orderly batch s) : Ready orderly batch s' := by
  unfold Ready
  rw [h.log, h.enqueued, h.tables]
  exact hs

theorem holds_of_leads (h : Leads orderly p batch s) : Holds p s := by
  intro t cs hactive
  rcases h with hcrash | ⟨-, hlock, -⟩
  · simp [hcrash] at hactive
  · exact hlock

theorem Quiet.leads (h : Quiet p s s') {t : Nat} {cs : List Change}
    (hactive : s'.db.session p = some (.active t cs)) (hs : Leads orderly p batch s) :
    Leads orderly p batch s' := by
  obtain ⟨cs', hactive'⟩ := h.active t cs hactive
  rcases hs with hcrash | ⟨-, hlock, hready⟩
  · simp [hcrash] at hactive'
  · refine .inr ⟨⟨t, cs, hactive⟩, ?_, h.ready hready⟩
    rw [h.locks]
    exact hlock

variable {x : Choice}

theorem answer_of_serve {r : Req} {y : Rep r × State} (h : serve orderly p r x s = some y) :
    answer orderly p s r x = some y := by
  unfold serve at h
  split at h
  · cases h
  · exact h

theorem serve_ctxErr {b : Bool} (h : serve orderly p .ctxErr x s = some (b, s')) : s' = s := by
  have h := answer_of_serve h
  cases x <;> simp only [answer] at h <;> cases h
  rfl

theorem serve_send {id : Nat} {msg : Kafka.Message} {result : Option Err}
    (h : serve orderly p (.send id msg) x s = some (result, s')) :
    s' = { s with log := ⟨p, id, result⟩ :: s.log } := by
  have h := answer_of_serve h
  cases x <;> simp only [answer] at h <;> cases h
  rfl

/-- Recording a rejection fails, finds no row, or stages the due time for the count that the pass
sees. -/
theorem recordRejection_cases {id backoff : Nat} {lastError : Bytes} {rep : Except Err Nat}
    (h : serve orderly p (.recordRejection id lastError backoff) x s = some (rep, s')) :
    (∃ err aborts, rep = .error err ∧ s' = s.abort p aborts ∧
      (x = .fail err aborts ∨ aborts = true)) ∨
    ∃ t cs, s.db.session p = some (.active t cs) ∧
      ((∃ err, rep = .error err ∧ s' = s ∧ ∀ r ∈ s.db.view apply p, r.id ≠ id) ∨
        ∃ r ∈ s.db.view apply p, r.id = id ∧ ∃ next, retryAt t backoff r.rejections = some next ∧
          rep = .ok (r.rejections + 1) ∧ s' = s.stage p t cs (.rejection id lastError next)) := by
  have h := answer_of_serve h
  cases x <;> simp only [answer] at h <;> try cases h
  · split at h
    · rename_i t cs hp
      split at h
      · rename_i r hfind
        have hr := List.mem_of_find?_eq_some hfind
        have hid : r.id = id := by simpa using List.find?_some hfind
        split at h
        · cases h
          exact .inr ⟨t, cs, hp, .inr ⟨r, hr, hid, _, ‹_›, rfl, rfl⟩⟩
        · cases h
          exact .inl ⟨_, true, rfl, rfl, .inr rfl⟩
      · rename_i hnone
        cases h
        refine .inr ⟨t, cs, hp, .inl ⟨_, rfl, rfl, fun r hr => ?_⟩⟩
        simpa using List.find?_eq_none.mp hnone r hr
    · cases h
  · exact .inl ⟨_, _, rfl, rfl, .inl rfl⟩

theorem serve_recordRejection {id backoff : Nat} {lastError : Bytes} {rep : Except Err Nat}
    (h : serve orderly p (.recordRejection id lastError backoff) x s = some (rep, s')) :
    Quiet p s s' ∧ ∀ n, rep = .ok n → ∃ t cs, s'.db.session p = some (.active t cs) := by
  rcases recordRejection_cases h with ⟨err, aborts, rfl, rfl, -⟩ |
    ⟨t, cs, hp, ⟨err, rfl, rfl, -⟩ | ⟨r, -, -, next, -, rfl, rfl⟩⟩
  · exact ⟨quiet_abort p s _, by simp⟩
  · exact ⟨quiet_refl p s', by simp⟩
  · exact ⟨quiet_stage hp _, fun _ _ => ⟨t, _, Database.put_session_self⟩⟩

theorem serve_recordFailure {id : Nat} {lastError : Bytes} {rep : Option Err}
    (h : serve orderly p (.recordFailure id lastError) x s = some (rep, s')) : Quiet p s s' := by
  have h := answer_of_serve h
  cases x <;> simp only [answer] at h <;> try cases h
  · split at h
    · cases h
      exact quiet_stage ‹_› _
    · cases h
  · exact quiet_abort p s _

theorem serve_deletePublished {ids : List Nat}
    (h : serve orderly p (.deletePublished ids) x s = some (none, s')) :
    s'.log = s.log ∧ ∀ t cs, s'.db.session p = some (.active t cs) →
      ∀ id ∈ ids, id ∈ deletes cs := by
  have h := answer_of_serve h
  cases x <;> simp only [answer] at h <;> try cases h
  split at h
  · rename_i start cs hp
    cases h
    refine ⟨rfl, fun t cs' hs id hid => ?_⟩
    have hs : (s.db.put p (.active start (cs ++ [.delete ids]))).session p =
      some (.active t cs') := hs
    obtain ⟨-, rfl⟩ : start = t ∧ cs ++ [.delete ids] = cs' := by simpa using hs
    rw [deletes_append]
    exact mem_append_right _ (by simpa [deletes] using hid)
  · cases h

theorem serve_tryLock (h : serve orderly p .tryLock x s = some (.ok true, s')) :
    s'.log = s.log ∧ s'.enqueued = s.enqueued ∧ s'.db.tables = s.db.tables ∧
      s'.db.session = s.db.session ∧ s'.db.locks () = some p ∧
      ∃ t cs, s.db.session p = some (.active t cs) := by
  have h := answer_of_serve h
  cases x <;> simp only [answer] at h <;> try cases h
  split at h
  · rename_i hp hfree
    cases h
    exact ⟨rfl, rfl, rfl, rfl, by simp [Database.acquire], _, _, hp⟩
  · rename_i q hp hlock
    simp only [Option.some.injEq, Prod.mk.injEq, Except.ok.injEq, decide_eq_true_eq] at h
    obtain ⟨rfl, rfl⟩ := h
    exact ⟨rfl, rfl, rfl, rfl, hlock, _, _, hp⟩
  · cases h

theorem serve_selectBatch {limit maxAttempts : Nat}
    (h : serve orderly p (.selectBatch limit maxAttempts) x s = some (.rows batch, s')) :
    s' = s ∧ ∃ start cs locked, s.db.session p = some (.active start cs) ∧
      (orderly → locked = []) ∧
      batch = selectRows (s.db.view apply p) limit maxAttempts start locked := by
  have h := answer_of_serve h
  cases x with
  | rows locked =>
    simp only [answer] at h
    split at h
    · rename_i start cs hp
      split at h
      · cases h
      · rename_i hl
        simp only [Option.some.injEq, Prod.mk.injEq, Selected.rows.injEq] at h
        obtain ⟨rfl, rfl⟩ := h
        refine ⟨rfl, start, cs, locked, hp, fun ho => ?_, rfl⟩
        by_contra hne
        exact hl ⟨ho, hne⟩
    · cases h
  | _ => cases h

end GolangBasics.Tasks.Outbox
