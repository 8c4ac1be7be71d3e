import GolangBasics.Conc.Solo
import GolangBasics.Pgx.Versions

/-! A run of `Migrate` that nothing disturbs comes to its end, wherever earlier runs have left
off. -/
namespace GolangBasics.Pgx
open Conc

section solo
variable {p : Nat} {s : State} {tx : Tx}

/-- Nobody holds the lock and the transactions of `p` to come are not yet known. -/
structure Idle (p : Nat) (s : State) : Prop where
  free : s.db.locks () = none
  fresh : ∀ k, s.begun p ≤ k → s.db.session (p, k) = none

/-- `p` is in the active transaction `tx`, under the lock, and what it sees has the table. -/
structure AtWork (p : Nat) (tx : Tx) (t : Nat) (cs : List Change) (s : State) : Prop where
  active : s.db.session tx = some (.active t cs)
  lock : s.db.locks () = some tx
  last : tx.1 = p ∧ tx.2 < s.begun p
  fresh : ∀ k, s.begun p ≤ k → s.db.session (p, k) = none

variable {t : Nat} {cs : List Change}

theorem AtWork.ne (h : AtWork p tx t cs s) {k : Nat} (hk : s.begun p ≤ k) : (p, k) ≠ tx := by
  rintro rfl
  have := h.last.2
  omega

theorem AtWork.write (h : AtWork p tx t cs s) (c : Change) :
    AtWork p tx t (cs ++ [c]) (s.write tx t cs c) := by
  constructor
  case active => exact Database.put_session_self
  case lock =>
    show (s.db.write tx t cs [] c).locks () = some tx
    rw [Database.write_locks]
    simpa using h.lock
  case last => exact h.last
  case fresh =>
    intro k hk
    exact (Database.put_session_of_ne (h.ne hk)).trans (h.fresh k hk)

theorem AtWork.idle_commit (h : AtWork p tx t cs s) :
    Idle p { s with db := s.db.commit Change.apply tx cs } := by
  constructor
  · show (s.db.close tx .closed).locks () = none
    rw [Database.close_locks, if_pos h.lock]
  · intro k hk
    exact (Database.put_session_of_ne (h.ne hk)).trans (h.fresh k hk)

theorem AtWork.idle_close (h : AtWork p tx t cs s) : Idle p (s.close tx) := by
  simp only [State.close, h.active]
  exact ⟨h.idle_commit.1, h.idle_commit.2⟩

theorem AtWork.serve {dir : Except Err (List DirEntry)} (h : AtWork p tx t cs s) {r : Req}
    {rep : Rep r} {s' : State}
    (hexecute : execute tx s t cs r = some (rep, s')) (htx : r.tx? = some tx)
    (hr : r ≠ .rollback tx) : (runners dir).serve p r .ok s = some (rep, s') := by
  show answer p s r = some (rep, s')
  rw [answer_statement htx hr, h.active]
  exact hexecute

variable (dir : Except Err (List DirEntry))

theorem AtWork.view (h : AtWork p tx t cs s) :
    s.db.view Change.apply tx = Database.applyAll Change.apply cs s.db.tables := view_eq h.active

theorem solo_apply {m : Migration} {rows : List (Int × String)} (h : AtWork p tx t cs s)
    (hrows : (Database.applyAll Change.apply cs s.db.tables).bookkeeping = some rows)
    (hmissing : m.version ∉ rows.map Prod.fst) :
    ∃ s', (runners dir).Solo p .ok (apply m tx) s (true, none) s' ∧ Idle p s' := by
  let cs₁ := cs ++ [.runSQL m]
  let cs₂ := cs₁ ++ [.record m.version m.name]
  let s₁ := s.write tx t cs (.runSQL m)
  let s₂ := s₁.write tx t cs₁ (.record m.version m.name)
  have hran : AtWork p tx t cs₁ s₁ := h.write _
  have hrecorded : AtWork p tx t cs₂ s₂ := hran.write _
  have hview : (s₁.db.view Change.apply tx).bookkeeping = some rows := by
    rw [hran.view, applyAll_append]
    exact hrows
  have hexec : execute tx s t cs (.exec tx m) = some (none, s₁) := rfl
  have hinsert : execute tx s₁ t cs₁ (.insertVersion tx m.version m.name) = some (none, s₂) := by
    simp only [execute, hview, if_neg hmissing]
    rfl
  have hcommit : execute tx s₂ t cs₂ (.commit tx) =
      some (none, { s₂ with db := s₂.db.commit Change.apply tx cs₂ }) := rfl
  refine ⟨_, ?_, hrecorded.idle_commit⟩
  refine .ask (h.serve hexec rfl (by simp)) ?_
  refine .ask (hran.serve hinsert rfl (by simp)) ?_
  exact .ask (hrecorded.serve hcommit rfl (by simp)) (.ret _ _)

theorem solo_applyTx (m : Migration) (hactive : s.db.session tx = some (.active t []))
    (hfree : s.db.locks () = none) (hlast : tx.1 = p ∧ tx.2 < s.begun p)
    (hfresh : ∀ k, s.begun p ≤ k → s.db.session (p, k) = none) :
    ∃ ran s', (runners dir).Solo p .ok (applyTx m tx) s (ran, none) s' ∧
      if ran then Idle p s' else ∃ cs, AtWork p tx t cs s' := by
  let s₁ : State := { s with db := s.db.acquire tx [()] }
  have hlocked : AtWork p tx t [] s₁ :=
    ⟨hactive, by simp [s₁, Database.acquire_locks], hlast, hfresh⟩
  have hlock : (runners dir).serve p (.lock tx) .ok s = some (none, s₁) := by
    show answer p s (.lock tx) = some (none, s₁)
    rw [answer_statement rfl (by simp), hactive]
    exact if_pos (.inl hfree)
  obtain ⟨cs, s₂, rows, hensure, hwork, hrows⟩ : ∃ cs s₂ rows,
      execute tx s₁ t [] (.ensureTable tx) = some (none, s₂) ∧ AtWork p tx t cs s₂ ∧
        (Database.applyAll Change.apply cs s₂.db.tables).bookkeeping = some rows := by
    cases hbook : s₁.db.tables.bookkeeping with
    | some rows =>
      refine ⟨[], s₁, rows, ?_, hlocked, hbook⟩
      simp only [execute, hlocked.view]
      exact if_pos (by simp [Database.applyAll, hbook])
    | none =>
      refine ⟨[] ++ [.createTable], s₁.write tx t [] .createTable, s₁.db.tables.rows, ?_,
        hlocked.write _, rfl⟩
      simp only [execute, hlocked.view]
      exact if_neg (by simp [Database.applyAll, hbook])
  have hselect : execute tx s₂ t cs (.selectVersion tx m.version) =
      some (.ok (m.version ∈ rows.map Prod.fst), s₂) := by
    simp only [execute, hwork.view, hrows]
  by_cases hfound : m.version ∈ rows.map Prod.fst
  · refine ⟨false, s₂, ?_, cs, hwork⟩
    rw [decide_eq_true hfound] at hselect
    refine .ask hlock (.ask (hlocked.serve hensure rfl (by simp)) ?_)
    exact .ask (hwork.serve hselect rfl (by simp)) (.ret _ _)
  · obtain ⟨s', hsolo, hidle⟩ := solo_apply dir hwork hrows hfound
    refine ⟨true, s', ?_, hidle⟩
    rw [decide_eq_false hfound] at hselect
    refine .ask hlock (.ask (hlocked.serve hensure rfl (by simp)) ?_)
    exact .ask (hwork.serve hselect rfl (by simp)) hsolo

theorem solo_applyOne (m : Migration) (h : Idle p s) :
    ∃ ran s', (runners dir).Solo p .ok (applyOne m) s (ran, none) s' ∧ Idle p s' := by
  let tx : Tx := (p, s.begun p)
  let s₁ : State := ⟨s.db.start tx, Function.update s.begun p (s.begun p + 1)⟩
  have hbegin : (runners dir).serve p .beginTx .ok s = some (.ok tx, s₁) := rfl
  have hbegun : s₁.begun p = s.begun p + 1 := Function.update_self ..
  have hfresh : ∀ k, s₁.begun p ≤ k → s₁.db.session (p, k) = none := by
    intro k hk
    have hne : (p, k) ≠ tx := by
      intro heq
      have : k = s.begun p := congrArg Prod.snd heq
      omega
    exact (Database.put_session_of_ne hne).trans (h.fresh k (by omega))
  have hactive : s₁.db.session tx = some (.active s.db.clock []) := Database.put_session_self
  obtain ⟨ran, s₂, hsolo, hend⟩ :=
    solo_applyTx dir m hactive h.free ⟨rfl, by simp [tx, hbegun]⟩ hfresh
  cases ran with
  | true => exact ⟨true, s₂, .ask hbegin (hsolo.bind (.ret _ _)), hend⟩
  | false =>
    obtain ⟨cs, hwork⟩ := hend
    have hrollback : (runners dir).serve p (.rollback tx) .ok s₂ = some (none, s₂.close tx) := rfl
    exact ⟨false, s₂.close tx, .ask hbegin (hsolo.bind (.ask hrollback (.ret _ _))),
      hwork.idle_close⟩

theorem solo_applyAll (ms : List Migration) (h : Idle p s) :
    ∃ s', (runners dir).Solo p .ok (applyAll ms) s none s' := by
  induction ms generalizing s with
  | nil => exact ⟨s, .ret _ _⟩
  | cons m rest ih =>
    obtain ⟨ran, s₁, hsolo, hidle⟩ := solo_applyOne dir m h
    obtain ⟨s₂, hrest⟩ := ih hidle
    exact ⟨s₂, hsolo.bind hrest⟩

end solo

section order
variable {ms : List Migration} {dir : Except Err (List DirEntry)} {init : Tables}
  {c : Config Nat Req Rep State Unit (Option Err)}

theorem version_mem_recorded_iff (hsorted : ms.Pairwise fun a b => a.version < b.version)
    {t : Tables} (ht : Consistent ms t) {m : Migration} (hm : m ∈ ms) :
    m.version ∈ t.recorded ↔ m ∈ t.effects := by
  constructor
  · intro hrecorded
    obtain ⟨i, hi⟩ := List.mem_iff_getElem?.mp hm
    have hlt := (mem_recorded_iff hsorted ht hi).mp hrecorded
    obtain ⟨rest, hrest⟩ := ht.effects
    rw [← hrest, List.getElem?_append_left hlt] at hi
    exact List.mem_of_getElem? hi
  · intro heffect
    rw [recorded_eq ht]
    exact List.mem_map_of_mem heffect

/-- The migration that is due is the first one not on record. -/
theorem Due.find (hsorted : ms.Pairwise fun a b => a.version < b.version) {t : Tables}
    (ht : Consistent ms t) {m : Migration} (hdue : Due ms t m) :
    ms.find? (fun a => a.version ∉ t.recorded) = some m := by
  obtain ⟨rest, hrest⟩ := ht.effects
  have hdue : ms[t.effects.length]? = some m := hdue
  have hmissing : m.version ∉ t.recorded := by
    rw [mem_recorded_iff hsorted ht hdue]
    exact lt_irrefl _
  have hold : t.effects.find? (fun a => a.version ∉ t.recorded) = none := by
    apply List.find?_eq_none.mpr
    intro a ha
    have : a.version ∈ t.recorded := recorded_eq ht ▸ List.mem_map_of_mem ha
    simpa using this
  rw [← hrest, List.getElem?_append_right (le_refl _), Nat.sub_self] at hdue
  cases rest with
  | nil => simp at hdue
  | cons a rest =>
    have : a = m := by simpa using hdue
    subst this
    rw [← hrest, List.find?_append, hold, Option.none_or, List.find?_cons_of_pos]
    simpa using hmissing

/-- What a user of `Migrate` can count on at any time. The recorded versions are a start of the
version order; the SQL of a recorded version has taken effect once and no other has; a run that
has returned without an error has every version on record; a run executes a migration only when
it is the first one not on record; and a new run that nothing disturbs returns without an
error. -/
structure InOrder (dir : Except Err (List DirEntry)) (ms : List Migration)
    (c : Config Nat Req Rep State Unit (Option Err)) : Prop where
  recorded : c.shared.db.tables.recorded <+: ms.map Migration.version
  once : ∀ m ∈ ms, c.shared.db.tables.effects.count m =
    if m.version ∈ c.shared.db.tables.recorded then 1 else 0
  only : ∀ m ∈ c.shared.db.tables.effects, m ∈ ms
  finished : ∀ p, c.proc p = some ((), .ret none) →
    c.shared.db.tables.recorded = ms.map Migration.version
  resumes : ∀ p tx m k, c.proc p = some ((), .ask (.exec tx m) k) →
    (∃ t cs, c.shared.db.session tx = some (.active t cs)) →
    ms.find? (fun a => a.version ∉ c.shared.db.tables.recorded) = some m
  ends : ∀ p, c.proc p = none → c.shared.db.locks () = none → ∃ n c',
    (runners dir).run c (.start p () :: List.replicate n (.step p .ok)) = some c' ∧
      c'.proc p = some ((), .ret none)

theorem migrate_in_order (hload : loadMigrations dir = .ok ms) (hinit : Consistent ms init)
    (hc : (runners dir).Reachable (State.init init) c) :
    (ms.Pairwise fun a b => a.version < b.version) ∧ InOrder dir ms c := by
  have hsorted := loadMigrations_sorted hload
  have hholds := holds_of_runners hload hinit hc
  have hinv : Inv ms c.shared := hholds.1
  have ht := hinv.sound.consistent
  refine ⟨hsorted, ?_⟩
  constructor
  case recorded =>
    rw [recorded_eq ht]
    exact ht.effects.map _
  case once =>
    intro m hm
    have hnodup : c.shared.db.tables.effects.Nodup := by
      have hms : ms.Nodup := hsorted.imp fun hlt heq => by simp [heq] at hlt
      exact hms.sublist ht.effects.sublist
    rw [if_congr (version_mem_recorded_iff hsorted ht hm) rfl rfl]
    exact hnodup.count
  case only => exact fun m hm => ht.effects.subset hm
  case finished =>
    intro p hp
    have hdone : ms.length ≤ c.shared.db.tables.effects.length := hholds.returned hp rfl
    rw [recorded_eq ht, ht.effects.eq_of_length_le hdone]
  case resumes =>
    rintro p tx m k hp ⟨t, cs, hactive⟩
    have hpre := (hholds.2 p () _ hp c.shared .refl hinv).1
    obtain ⟨-, -, hdue⟩ := hpre.2 t cs hactive
    exact hdue.find hsorted ht
  case ends =>
    intro p hp hfree
    have hidle : Idle p c.shared := ⟨hfree, fun k hk => hinv.fresh (p, k) hk⟩
    obtain ⟨s', hsolo⟩ := solo_applyAll dir ms hidle
    rw [← code_eq hload p ()] at hsolo
    obtain ⟨n, c', hrun, -, hproc⟩ := hsolo.run
      (c := ⟨c.shared, Function.update c.proc p (some ((), (runners dir).code p ()))⟩) rfl
      (Function.update_self ..)
    refine ⟨n, c', ?_, hproc⟩
    rw [Machine.run, Machine.next, hp]
    exact hrun

def twoFiles : Except Err (List DirEntry) :=
  .ok [⟨"002_add.sql", false, .ok "ALTER TABLE"⟩, ⟨"001_init.sql", false, .ok "CREATE TABLE"⟩]

def twoMigrations : List Migration :=
  [⟨1, "init", "001_init.sql", "CREATE TABLE"⟩, ⟨2, "add", "002_add.sql", "ALTER TABLE"⟩]

def secondFails : List (Event Nat Choice Env Unit) :=
  .start 0 () :: List.replicate 11 (.step 0 .ok) ++
    [.step 0 (.fail (.new (utf8 "syntax error")) true), .step 0 .ok]

theorem migrate_in_order_secondFails : ∃ c : Config Nat Req Rep State Unit (Option Err),
    (runners twoFiles).run ⟨State.init ⟨none, []⟩, fun _ => none⟩ secondFails = some c ∧
      c.shared.db.tables.recorded = [1] ∧ c.shared.db.locks () = none ∧
      InOrder twoFiles twoMigrations c := by
  obtain ⟨c, hrun, hrecorded, hfree⟩ : ∃ c,
      (runners twoFiles).run ⟨State.init ⟨none, []⟩, fun _ => none⟩ secondFails = some c ∧
        c.shared.db.tables.recorded = [1] ∧ c.shared.db.locks () = none := ⟨_, rfl, rfl, rfl⟩
  have hinit : Consistent twoMigrations ⟨none, []⟩ := ⟨by simp, rfl⟩
  exact ⟨c, hrun, hrecorded, hfree,
    (migrate_in_order rfl hinit (Machine.Reachable.run .init hrun)).2⟩

end order
end GolangBasics.Pgx
