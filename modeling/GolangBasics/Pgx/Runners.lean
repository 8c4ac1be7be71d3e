import GolangBasics.Pgx.Migrate

/-! What the statements of the runners do to the database, and what a runner can rely on while
the others run. -/
namespace GolangBasics.Pgx
open Conc List Option

section tables
variable (ms : List Migration)

def Migration.row (m : Migration) : Int × String := (m.version, m.name)

/-- The first migrations have taken effect, each once and in order, and are on record. -/
structure Consistent (t : Tables) : Prop where
  effects : t.effects <+: ms
  rows : t.rows = t.effects.map Migration.row

def Due (t : Tables) (m : Migration) : Prop := ms[t.effects.length]? = some m

def tableChanges (t : Tables) : List Change :=
  if t.bookkeeping.isSome then [] else [.createTable]

inductive Staged (t : Tables) : List Change → Prop where
  | nothing : Staged t []
  | table : Staged t (tableChanges t)
  | ran {m : Migration} (hdue : Due ms t m) : Staged t (tableChanges t ++ [.runSQL m])
  | recorded {m : Migration} (hdue : Due ms t m) :
      Staged t (tableChanges t ++ [.runSQL m, .record m.version m.name])

def Complete (t : Tables) (cs : List Change) : Prop :=
  ∃ m, Due ms t m ∧ cs = tableChanges t ++ [.runSQL m, .record m.version m.name]

variable {ms} {t : Tables} {cs : List Change}

theorem Complete.ne_nil (h : Complete ms t cs) : cs ≠ [] := by
  obtain ⟨m, -, rfl⟩ := h
  simp

theorem Complete.staged (h : Complete ms t cs) : Staged ms t cs := by
  obtain ⟨m, hdue, rfl⟩ := h
  exact .recorded hdue

theorem applyAll_tableChanges (t : Tables) :
    Database.applyAll Change.apply (tableChanges t) t = { t with bookkeeping := some t.rows } := by
  obtain ⟨bookkeeping, effects⟩ := t
  cases bookkeeping <;> rfl

theorem applyAll_append (cs ds : List Change) (t : Tables) :
    Database.applyAll Change.apply (cs ++ ds) t =
      Database.applyAll Change.apply ds (Database.applyAll Change.apply cs t) :=
  foldl_append

/-- A commit adds the migration that was due, and its row. -/
theorem Complete.applyAll (h : Complete ms t cs) : ∃ m, Due ms t m ∧
    Database.applyAll Change.apply cs t = ⟨some (t.rows ++ [m.row]), t.effects ++ [m]⟩ := by
  obtain ⟨m, hdue, rfl⟩ := h
  refine ⟨m, hdue, ?_⟩
  rw [applyAll_append, applyAll_tableChanges]
  rfl

theorem Consistent.commit (ht : Consistent ms t) (h : Complete ms t cs) :
    Consistent ms (Database.applyAll Change.apply cs t) ∧
      t.effects <+: (Database.applyAll Change.apply cs t).effects := by
  obtain ⟨m, hdue, heq⟩ := h.applyAll
  rw [heq]
  refine ⟨⟨?_, ?_⟩, prefix_append ..⟩
  · obtain ⟨rest, hrest⟩ := ht.effects
    have hm : ms[t.effects.length]? = some m := hdue
    rw [← hrest, List.getElem?_append_right (le_refl _), Nat.sub_self] at hm
    cases rest with
    | nil => simp at hm
    | cons m' rest =>
      have : m' = m := by simpa using hm
      subst this
      exact ⟨rest, by simpa using hrest⟩
  · show t.rows ++ [m.row] = (t.effects ++ [m]).map Migration.row
    rw [ht.rows, map_append]
    rfl

end tables

section database
variable (ms : List Migration)

/-- What holds between two statements, whoever runs: only the holder of the lock has changed
anything, and its changes fit the tables. -/
structure Sound (db : Database Tx Unit Change Tables) : Prop where
  wf : db.Wf
  consistent : Consistent ms db.tables
  locked : ∀ tx, db.changes tx ≠ [] → db.locks () = some tx
  staged : ∀ tx, Staged ms db.tables (db.changes tx)
  committing : ∀ tx cs, db.session tx = some (.committing cs) → Complete ms db.tables cs

inductive Act (tx : Tx) (db : Database Tx Unit Change Tables) :
    Database Tx Unit Change Tables → Prop where
  | start (h : db.session tx = none) : Act tx db (db.start tx)
  | lock {t cs} (h : db.session tx = some (.active t cs))
      (hfree : db.locks () = none ∨ db.locks () = some tx) : Act tx db (db.acquire tx [()])
  | stage {t cs} (c : Change) (h : db.session tx = some (.active t cs))
      (hlock : db.locks () = some tx) (hstaged : Staged ms db.tables (cs ++ [c])) :
      Act tx db (db.write tx t cs [] c)
  | fail {t cs} (h : db.session tx = some (.active t cs)) : Act tx db (db.put tx .failed)
  | suspend {t cs} (h : db.session tx = some (.active t cs)) (hcs : Complete ms db.tables cs) :
      Act tx db (db.put tx (.committing cs))
  | close {x} (h : db.session tx = some x) (hopen : x.isOpen) : Act tx db (db.close tx .closed)
  | commit {t cs} (h : db.session tx = some (.active t cs) ∨ db.session tx = some (.committing cs))
      (hcs : Complete ms db.tables cs) : Act tx db (db.commit Change.apply tx cs)

variable {ms} {tx : Tx} {db db' : Database Tx Unit Change Tables}

theorem Act.step (h : Act ms tx db db') : db.Step Change.apply tx db' := by
  cases h with
  | start h => exact .start h
  | lock h hfree => exact .acquire [()] h fun _ _ => hfree
  | stage c h => exact .write [] c h (by simp)
  | fail h => exact .fail h
  | suspend h => exact .suspend h
  | close h hopen => exact .close h hopen rfl
  | commit h => exact .commit h

/-- Only a commit changes the tables, and only the holder of the lock commits. -/
theorem Act.tables (h : Act ms tx db db') (hdb : Sound ms db) :
    db'.tables = db.tables ∨ db.locks () = some tx ∧ Consistent ms db'.tables ∧
      db.tables.effects <+: db'.tables.effects ∧ ∀ t cs, db'.session tx ≠ some (.active t cs) := by
  cases h with
  | @commit t cs h hcs =>
    have hlock := hdb.locked tx (Database.changes_of_open h ▸ hcs.ne_nil)
    obtain ⟨hconsistent, hgrows⟩ := hdb.consistent.commit hcs
    have hclosed : (db.commit Change.apply tx cs).session tx = some .closed :=
      Database.put_session_self
    exact .inr ⟨hlock, hconsistent, hgrows, by simp [hclosed]⟩
  | _ => exact .inl rfl

theorem Act.grows (h : Act ms tx db db') (hdb : Sound ms db) :
    db.tables.effects <+: db'.tables.effects := by
  obtain htables | ⟨-, -, hgrows, -⟩ := h.tables hdb
  · exact htables.symm ▸ prefix_refl _
  · exact hgrows

/-- The transaction that takes the step keeps to the lock and to the order of statements. -/
theorem Act.own (h : Act ms tx db db') (hdb : Sound ms db) :
    (db'.changes tx ≠ [] → db'.locks () = some tx) ∧ Staged ms db'.tables (db'.changes tx) ∧
      ∀ cs, db'.session tx = some (.committing cs) → Complete ms db'.tables cs := by
  have hidle : ∀ {db' : Database Tx Unit Change Tables} {x : Session Change},
      db'.session tx = some x → db'.changes tx = [] → (∀ cs, x ≠ .committing cs) →
      (db'.changes tx ≠ [] → db'.locks () = some tx) ∧ Staged ms db'.tables (db'.changes tx) ∧
        ∀ cs, db'.session tx = some (.committing cs) → Complete ms db'.tables cs := by
    intro db' x hx hchanges hne
    refine ⟨fun h => absurd hchanges h, hchanges ▸ .nothing, ?_⟩
    intro cs hcs
    exact absurd (some.inj (hx.symm.trans hcs)) (hne cs)
  have hended : ∀ {db' : Database Tx Unit Change Tables}, db'.session tx = some .closed →
      db'.changes tx = [] := fun h => Database.changes_of_ended ⟨_, h, rfl⟩
  cases h with
  | start h =>
    have hsession : (db.start tx).session tx = some (.active db.clock []) :=
      Database.put_session_self
    exact hidle hsession (Database.changes_active hsession) (by simp)
  | lock h hfree =>
    have hsession : (db.acquire tx [()]).session tx = db.session tx := rfl
    refine ⟨fun _ => by simp [Database.acquire_locks], hdb.staged tx, ?_⟩
    intro cs hcs
    simp [hsession, h] at hcs
  | @stage t cs c h hlock hstaged =>
    have hsession : (db.write tx t cs [] c).session tx = some (.active t (cs ++ [c])) :=
      Database.put_session_self
    refine ⟨fun _ => ?_, ?_, ?_⟩
    · rw [Database.write_locks]
      simpa using hlock
    · rw [Database.changes_active hsession]
      exact hstaged
    · intro cs hcs
      simp [hsession] at hcs
  | fail h =>
    have hsession : (db.put tx .failed).session tx = some .failed := Database.put_session_self
    exact hidle hsession (by simp [Database.changes]) (by simp)
  | @suspend t cs h hcs =>
    have hsession : (db.put tx (.committing cs)).session tx = some (.committing cs) :=
      Database.put_session_self
    refine ⟨fun _ => ?_, ?_, ?_⟩
    · exact hdb.locked tx (Database.changes_active h ▸ hcs.ne_nil)
    · rw [Database.changes_committing hsession]
      exact hcs.staged
    · intro cs' hcs'
      rw [hsession] at hcs'
      cases hcs'
      exact hcs
  | close h hopen =>
    have hsession : (db.close tx .closed).session tx = some .closed := Database.put_session_self
    exact hidle hsession (hended hsession) (by simp)
  | @commit t cs h hcs =>
    have hsession : (db.commit Change.apply tx cs).session tx = some .closed :=
      Database.put_session_self
    exact hidle hsession (hended hsession) (by simp)

theorem Sound.changes_of_lock (hdb : Sound ms db) {q : Tx} (hlock : db.locks () = some tx)
    (hq : q ≠ tx) : db.changes q = [] := by
  by_contra hne
  rw [hdb.locked q hne] at hlock
  exact hq (some.inj hlock)

theorem Act.sound (h : Act ms tx db db') (hdb : Sound ms db) : Sound ms db' := by
  obtain ⟨hlocked, hstaged, hcommitting⟩ := h.own hdb
  have hchanges : ∀ q, q ≠ tx → db'.changes q = db.changes q :=
    fun q hq => Database.changes_congr (h.step.session_of_ne hq)
  constructor
  case wf => exact h.step.wf hdb.wf
  case consistent =>
    obtain htables | ⟨-, hconsistent, -⟩ := h.tables hdb
    · exact htables ▸ hdb.consistent
    · exact hconsistent
  case locked =>
    intro q hne
    by_cases hq : q = tx
    · subst hq
      exact hlocked hne
    · rw [hchanges q hq] at hne
      exact (h.step.locks_of_ne hq).mpr (hdb.locked q hne)
  case staged =>
    intro q
    by_cases hq : q = tx
    · subst hq
      exact hstaged
    · rw [hchanges q hq]
      obtain htables | ⟨hlock, -⟩ := h.tables hdb
      · exact htables ▸ hdb.staged q
      · rw [hdb.changes_of_lock hlock hq]
        exact .nothing
  case committing =>
    intro q cs hcs
    by_cases hq : q = tx
    · subst hq
      exact hcommitting cs hcs
    · rw [h.step.session_of_ne hq] at hcs
      have hcomplete := hdb.committing q cs hcs
      obtain htables | ⟨hlock, -⟩ := h.tables hdb
      · exact htables ▸ hcomplete
      · have hnil := hdb.changes_of_lock hlock hq
        rw [Database.changes_committing hcs] at hnil
        exact absurd hnil hcomplete.ne_nil

end database

section moves
variable (ms : List Migration)

structure Inv (s : State) : Prop where
  sound : Sound ms s.db
  fresh : ∀ tx : Tx, s.begun tx.1 ≤ tx.2 → s.db.session tx = none

inductive Move (p : Nat) (s : State) : State → Prop where
  | stay : Move p s s
  | begin : Move p s ⟨s.db.start (p, s.begun p), Function.update s.begun p (s.begun p + 1)⟩
  | act {tx : Tx} {db' : Database Tx Unit Change Tables} (htx : tx.1 = p)
      (hknown : s.db.session tx ≠ none) (h : Act ms tx s.db db') : Move p s { s with db := db' }

/-- What the others leave of the transactions of `q`: they may be dropped, and while one of them
holds the lock nothing is committed. -/
structure Kept (q : Nat) (s s' : State) : Prop where
  back : ∀ k t cs, s'.db.session (q, k) = some (.active t cs) →
    s.db.session (q, k) = some (.active t cs)
  held : ∀ k t cs, s'.db.session (q, k) = some (.active t cs) → s.db.locks () = some (q, k) →
    s'.db.locks () = some (q, k) ∧ s'.db.tables = s.db.tables
  grows : s.db.tables.effects <+: s'.db.tables.effects

variable {ms} {p q : Nat} {s s' : State} {tx : Tx} {db' : Database Tx Unit Change Tables}

theorem inv_act (hs : Inv ms s) (h : Act ms tx s.db db') (hknown : s.db.session tx ≠ none) :
    Inv ms { s with db := db' } := by
  refine ⟨h.sound hs.sound, ?_⟩
  intro q hq
  have hnone := hs.fresh q hq
  have hne : q ≠ tx := by
    rintro rfl
    exact hknown hnone
  exact (h.step.session_of_ne hne).trans hnone

theorem Move.inv (h : Move ms p s s') (hs : Inv ms s) : Inv ms s' := by
  cases h with
  | stay => exact hs
  | begin =>
    have hact : Act ms (p, s.begun p) s.db (s.db.start (p, s.begun p)) :=
      .start (hs.fresh _ (le_refl _))
    refine ⟨hact.sound hs.sound, ?_⟩
    intro q hq
    have hne : q ≠ (p, s.begun p) := by
      rintro rfl
      simp only [Function.update_self] at hq
      omega
    have hold : s.begun q.1 ≤ q.2 := by
      by_cases hqp : q.1 = p
      · rw [hqp] at hq ⊢
        simp only [Function.update_self] at hq
        omega
      · simpa [Function.update_of_ne hqp] using hq
    exact (hact.step.session_of_ne hne).trans (hs.fresh q hold)
  | act htx hknown h => exact inv_act hs h hknown

theorem Move.grows (h : Move ms p s s') (hs : Inv ms s) :
    s.db.tables.effects <+: s'.db.tables.effects := by
  cases h with
  | stay | begin => exact prefix_refl _
  | act htx hknown h => exact h.grows hs.sound

theorem kept_act (hs : Inv ms s) (h : Act ms tx s.db s'.db)
    (hother : tx.1 ≠ q ∨ ∀ t cs, s'.db.session tx ≠ some (.active t cs)) : Kept q s s' := by
  have hne : ∀ k t cs, s'.db.session (q, k) = some (.active t cs) → (q, k) ≠ tx := by
    rintro k t cs hactive rfl
    obtain hother | hother := hother
    · exact hother rfl
    · exact hother t cs hactive
  constructor
  case back =>
    intro k t cs hactive
    rw [← h.step.session_of_ne (hne k t cs hactive)]
    exact hactive
  case held =>
    intro k t cs hactive hlock
    have hk := hne k t cs hactive
    refine ⟨(h.step.locks_of_ne hk).mpr hlock, ?_⟩
    obtain htables | ⟨htx, -⟩ := h.tables hs.sound
    · exact htables
    · exact absurd (some.inj (hlock.symm.trans htx)) hk
  case grows => exact h.grows hs.sound

theorem kept_move (hs : Inv ms s) (hpq : p ≠ q) (h : Move ms p s s') : Kept q s s' := by
  cases h with
  | stay =>
    exact ⟨fun _ _ _ h => h, fun _ _ _ _ h => ⟨h, rfl⟩, prefix_refl _⟩
  | begin =>
    have hact : Act ms (p, s.begun p) s.db (s.db.start (p, s.begun p)) :=
      .start (hs.fresh _ (le_refl _))
    exact kept_act hs hact (.inl hpq)
  | act htx hknown h => exact kept_act hs h (.inl (htx ▸ hpq))

end moves

section protocol
variable (ms : List Migration)

/-- As long as the transaction is active it holds the lock and its changes are as `P` says. -/
def Holding (tx : Tx) (P : Tables → List Change → Prop) (s : State) : Prop :=
  ∀ t cs, s.db.session tx = some (.active t cs) →
    s.db.locks () = some tx ∧ P s.db.tables cs

def pre (p : Nat) (r : Req) (s : State) : Prop :=
  match r with
  | .beginTx => True
  | .lock tx | .selectVersion tx _ | .rollback tx => tx.1 = p
  | .ensureTable tx => tx.1 = p ∧ Holding tx (fun _ cs => cs = []) s
  | .exec tx m => tx.1 = p ∧ Holding tx (fun t cs => cs = tableChanges t ∧ Due ms t m) s
  | .insertVersion tx version name => tx.1 = p ∧ ∃ m : Migration, version = m.version ∧
      name = m.name ∧ Holding tx (fun t cs => cs = tableChanges t ++ [.runSQL m] ∧ Due ms t m) s
  | .commit tx => tx.1 = p ∧ Holding tx (Complete ms) s

variable {ms} {p q : Nat} {s s' : State} {tx : Tx}

theorem move_abort (htx : tx.1 = p) (aborts : Bool) : Move ms p s (s.abort tx aborts) := by
  unfold State.abort
  split
  · rename_i t cs hactive
    by_cases haborts : aborts
    · simp only [haborts, if_true]
      exact .act htx (by simp [hactive]) (.fail hactive)
    · simp only [haborts]
      exact .stay
  · exact .stay

theorem move_close (htx : tx.1 = p) : Move ms p s (s.close tx) := by
  unfold State.close
  split
  · rename_i t cs hactive
    exact .act htx (by simp [hactive]) (.close hactive rfl)
  · rename_i hfailed
    exact .act htx (by simp [hfailed]) (.close hfailed rfl)
  · exact .stay

theorem move_stage {t : Nat} {cs : List Change} {c : Change} (htx : tx.1 = p)
    (hactive : s.db.session tx = some (.active t cs)) (hlock : s.db.locks () = some tx)
    (hstaged : Staged ms s.db.tables (cs ++ [c])) : Move ms p s (s.write tx t cs c) :=
  .act htx (by simp [hactive]) (.stage c hactive hlock hstaged)

variable {r : Req}

theorem execute_move {rep : Rep r} {t : Nat} {cs : List Change} (hpre : pre ms p r s)
    (htx : r.tx? = some tx) (hactive : s.db.session tx = some (.active t cs))
    (h : execute tx s t cs r = some (rep, s')) : Move ms p s s' := by
  have hview : s.db.view Change.apply tx = Database.applyAll Change.apply cs s.db.tables := by
    rw [Database.view, Database.changes_active hactive]
  cases r with
  | beginTx => cases htx
  | rollback => cases h
  | lock tx' =>
    cases htx
    simp only [execute] at h
    split at h
    · rename_i hfree
      cases h
      exact .act hpre (by simp [hactive]) (.lock hactive hfree)
    · cases h
  | ensureTable tx' =>
    cases htx
    obtain ⟨hlock, rfl⟩ := hpre.2 t cs hactive
    simp only [execute, hview] at h
    split at h
    · cases h
      exact .stay
    · rename_i hnone
      cases h
      refine move_stage hpre.1 hactive hlock ?_
      have htable : tableChanges s.db.tables = [.createTable] := if_neg hnone
      rw [nil_append, ← htable]
      exact .table
  | selectVersion tx' version =>
    cases htx
    simp only [execute] at h
    split at h
    · cases h
      exact move_abort hpre true
    · cases h
      exact .stay
  | exec tx' m =>
    cases htx
    obtain ⟨hlock, rfl, hdue⟩ := hpre.2 t cs hactive
    cases h
    exact move_stage hpre.1 hactive hlock (.ran hdue)
  | insertVersion tx' version name =>
    cases htx
    obtain ⟨htx, m, rfl, rfl, hholding⟩ := hpre
    obtain ⟨hlock, rfl, hdue⟩ := hholding t cs hactive
    simp only [execute] at h
    split at h
    · cases h
      exact move_abort htx true
    · split at h
      · cases h
        exact move_abort htx true
      · cases h
        refine move_stage htx hactive hlock ?_
        rw [append_assoc]
        exact .recorded hdue
  | commit tx' =>
    cases htx
    obtain ⟨hlock, hcs⟩ := hpre.2 t cs hactive
    cases h
    exact .act hpre.1 (by simp [hactive]) (.commit (.inl hactive) hcs)

theorem answer_statement (htx : r.tx? = some tx) (hr : r ≠ .rollback tx) :
    answer p s r = match s.db.session tx with
      | some (.active start changes) => execute tx s start changes r
      | _ => none := by
  cases r with
  | beginTx => cases htx
  | rollback =>
    cases htx
    exact absurd rfl hr
  | _ =>
    cases htx
    rfl

theorem answer_cases {rep : Rep r} (htx : r.tx? = some tx) (hr : r ≠ .rollback tx)
    (h : answer p s r = some (rep, s')) :
    ∃ t cs, s.db.session tx = some (.active t cs) ∧ execute tx s t cs r = some (rep, s') := by
  rw [answer_statement htx hr] at h
  split at h
  · exact ⟨_, _, ‹_›, h⟩
  · cases h

theorem answer_move {rep : Rep r} (hpre : pre ms p r s) (h : answer p s r = some (rep, s')) :
    Move ms p s s' := by
  cases htx : r.tx? with
  | none =>
    cases r with
    | beginTx =>
      cases h
      exact .begin
    | _ => cases htx
  | some tx =>
    by_cases hr : r = .rollback tx
    · subst hr
      cases h
      exact move_close hpre
    · obtain ⟨t, cs, hactive, hexecute⟩ := answer_cases htx hr h
      exact execute_move hpre htx hactive hexecute

theorem fault_move (hpre : pre ms p r s) (aborts : Bool) : Move ms p s (s.fault r aborts) := by
  cases r with
  | beginTx => exact .stay
  | commit tx => exact move_close hpre.1
  | lock | selectVersion | rollback => exact move_abort hpre aborts
  | ensureTable | exec | insertVersion => exact move_abort hpre.1 aborts

theorem serve_move {x : Choice} {rep : Rep r} (hpre : pre ms p r s)
    (h : serve p r x s = some (rep, s')) : Move ms p s s' := by
  cases x with
  | ok => exact answer_move hpre h
  | fail err aborts =>
    cases h
    exact fault_move hpre aborts
  | unknown err =>
    cases r with
    | commit tx =>
      simp only [serve] at h
      split at h
      · rename_i t cs hactive
        obtain ⟨-, hcs⟩ := hpre.2 t cs hactive
        cases h
        exact .act hpre.1 (by simp [hactive]) (.suspend hactive hcs)
      · cases h
    | _ => cases h

/-- The server ends transactions; it commits only what was about to be committed. -/
theorem env_act {e : Env} (hs : Inv ms s) (h : env e s = some s') :
    ∃ tx, s.db.session tx ≠ none ∧ Act ms tx s.db s'.db ∧ s'.begun = s.begun ∧
      ∀ t cs, s'.db.session tx ≠ some (.active t cs) := by
  have hclosed : ∀ tx (db : Database Tx Unit Change Tables), db.session tx = some .closed →
      ∀ t cs, db.session tx ≠ some (.active t cs) := by
    intro tx db hdb t cs
    simp [hdb]
  cases e with
  | drop tx =>
    simp only [env] at h
    split at h
    · rename_i t cs hactive
      cases h
      exact ⟨tx, by simp [hactive], .close hactive rfl, rfl,
        hclosed tx _ Database.put_session_self⟩
    · rename_i hfailed
      cases h
      exact ⟨tx, by simp [hfailed], .close hfailed rfl, rfl,
        hclosed tx _ Database.put_session_self⟩
    · cases h
  | land tx =>
    simp only [env] at h
    split at h
    · rename_i cs hcommitting
      cases h
      exact ⟨tx, by simp [hcommitting],
        .commit (t := 0) (.inr hcommitting) (hs.sound.committing tx cs hcommitting), rfl,
        hclosed tx _ Database.put_session_self⟩
    · cases h
  | giveUp tx =>
    simp only [env] at h
    split at h
    · rename_i cs hcommitting
      cases h
      exact ⟨tx, by simp [hcommitting], .close hcommitting rfl, rfl,
        hclosed tx _ Database.put_session_self⟩
    · cases h

theorem env_inv {e : Env} (hs : Inv ms s) (h : env e s = some s') : Inv ms s' := by
  obtain ⟨tx, hknown, hact, hbegun, -⟩ := env_act hs h
  have hinv := inv_act hs hact hknown
  rw [← hbegun] at hinv
  exact hinv

def protocol (ms : List Migration) (dir : Except Err (List DirEntry)) : Protocol (runners dir) where
  inv := Inv ms
  pre := pre ms
  serve_inv hs hpre h := (serve_move hpre h).inv hs
  env_inv hs h := env_inv hs h
  accept_inv hs h := some.inj h ▸ hs

variable {dir : Except Err (List DirEntry)}

theorem kept_of_moves (h : (protocol ms dir).Moves q s s') : Kept q s s' := by
  cases h with
  | serve hpq hinv hpre h => exact kept_move hinv hpq (serve_move hpre h)
  | env hinv h =>
    obtain ⟨tx, -, hact, -, hended⟩ := env_act hinv h
    exact kept_act hinv hact (.inr hended)
  | accept hpq hinv h =>
    cases h
    exact kept_move hinv hpq .stay

def Done (n : Nat) (s : State) : Prop := n ≤ s.db.tables.effects.length

theorem stable_done (n : Nat) : (protocol ms dir).Stable q (Done n) :=
  fun _ _ hm h => h.trans (kept_of_moves hm).grows.length_le

/-- What a runner knows about its own transaction while it holds the lock stays true. -/
theorem stable_holding (htx : tx.1 = q) (P : Tables → List Change → Prop) :
    (protocol ms dir).Stable q (Holding tx P) := by
  obtain ⟨p, k⟩ := tx
  obtain rfl : p = q := htx
  intro s s' hm h t cs hactive
  have hk := kept_of_moves hm
  obtain ⟨hlock, hP⟩ := h t cs (hk.back k t cs hactive)
  obtain ⟨hlock', htables⟩ := hk.held k t cs hactive hlock
  exact ⟨hlock', htables ▸ hP⟩

def Clean (tx : Tx) (s : State) : Prop := ∀ t cs, s.db.session tx = some (.active t cs) → cs = []

theorem stable_clean (htx : tx.1 = q) : (protocol ms dir).Stable q (Clean tx) := by
  obtain ⟨p, k⟩ := tx
  obtain rfl : p = q := htx
  intro s s' hm h t cs hactive
  exact h t cs ((kept_of_moves hm).back k t cs hactive)

end protocol
end GolangBasics.Pgx
