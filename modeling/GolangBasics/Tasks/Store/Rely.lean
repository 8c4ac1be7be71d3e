import GolangBasics.Tasks.Store.Protocol

/-! What a call of the store can rely on while the other calls and the server run. -/
namespace GolangBasics.Tasks.Store
open Conc

/-- The records of `q` and of the history stay, and a deleted task stays deleted. -/
structure Grows (q : Nat) (s s' : State) : Prop where
  call : ∀ p call, (s.notes p).call = some call → (s'.notes p).call = some call
  created : (s'.notes q).created = (s.notes q).created
  saw : ∀ v ∈ (s.notes q).saw, v ∈ (s'.notes q).saw
  faulted : (s.notes q).faulted → (s'.notes q).faulted
  pending : ∀ id lost, (s.notes q).replay = .pending id lost →
    ∃ lost', (s'.notes q).replay = .pending id lost'
  settled : (∀ id lost, (s.notes q).replay ≠ .pending id lost) →
    (s'.notes q).replay = (s.notes q).replay
  history : ∀ e ∈ s.db.tables.history, e ∈ s'.db.tables.history
  gone : ∀ id, Gone id s.db.tables → Gone id s'.db.tables

/-- What the others leave of `q`: its session may be dropped, and only an undecided commit
may still happen. -/
structure Kept (q : Nat) (s s' : State) : Prop extends Grows q s s' where
  session : s'.db.session q = s.db.session q ∨
    (∃ x, s.db.session q = some x ∧ x.isOpen) ∧ s'.db.session q = some .closed
  committed : q ∈ s.db.committed → q ∈ s'.db.committed
  uncommitted : q ∉ s.db.committed → (∀ cs, s.db.session q ≠ some (.committing cs)) →
    q ∉ s'.db.committed

variable {p q : Nat} {s s' : State}

theorem grows_of_tables (hhistory : s'.db.tables.history = s.db.tables.history)
    (htasks : s'.db.tables.tasks = s.db.tables.tasks) (hnotes : s'.notes q = s.notes q)
    (hcall : ∀ p call, (s.notes p).call = some call → (s'.notes p).call = some call) :
    Grows q s s' := by
  constructor
  · exact hcall
  · rw [hnotes]
  · rw [hnotes]
    exact fun _ => id
  · rw [hnotes]
    exact id
  · intro id lost h
    exact ⟨lost, hnotes ▸ h⟩
  · rw [hnotes]
    exact fun _ => rfl
  · rw [hhistory]
    exact fun _ => id
  · intro id h
    unfold Gone
    rw [hhistory, htasks]
    exact h

theorem grows_commit {t : Nat} {cs : List Change} (hs : Inv s)
    (hp : s.db.session p = some (.active t cs) ∨ s.db.session p = some (.committing cs))
    (hc : Complete cs) : Grows q s (s.commit p cs) := by
  have hcs : s.db.changes p = cs := Database.changes_of_open hp
  obtain ⟨e, key, row, rfl, -, -⟩ := hc
  obtain ⟨-, -, hfits, -⟩ := hs.justified p (.task e) (by simp [hcs, transaction])
  have htables : (s.commit p (transaction e key row)).db.tables =
      Database.applyAll Change.apply (transaction e key row) s.db.tables := rfl
  constructor
  · exact fun _ _ h => h
  · rfl
  · exact fun _ h => h
  · exact id
  · intro id lost h
    exact ⟨_, congrArg (Replay.afterCommit _) h⟩
  · intro h
    show (s.notes q).replay.afterCommit _ = (s.notes q).replay
    cases hr : (s.notes q).replay with
    | pending id lost => exact absurd hr (h id lost)
    | _ => rfl
  · intro x hx
    rw [htables, applyAll_transaction]
    exact List.mem_append_left _ hx
  · intro id h
    rw [htables]
    exact h.commit hfits key row

theorem kept_move (hs : Inv s) (hpq : p ≠ q) (h : Move p s s') : Kept q s s' := by
  cases h with
  | @step db' next n hdb htables hcommitted hnext hchanges hcommitting hcall hreplay =>
    have hnotes : Function.update s.notes p n q = s.notes q := Function.update_of_ne hpq.symm _ _
    have hgrows : Grows q s ⟨db', next, s.ids, Function.update s.notes p n⟩ :=
      grows_of_tables (congrArg Tables.history htables) (congrArg Tables.tasks htables) hnotes
        fun r call hr => (call_update hcall r).trans hr
    have hsession : db'.session q = s.db.session q := by
      rcases hdb with rfl | hstep
      · rfl
      · exact hstep.session_of_ne hpq.symm
    refine ⟨hgrows, .inl hsession, fun hq => ?_, fun hq _ => ?_⟩
    · exact hcommitted.symm ▸ hq
    · exact hcommitted.symm ▸ hq
  | @commit t cs hp hc =>
    have hstep : s.db.Step Change.apply p (s.db.commit Change.apply p cs) := .commit hp
    refine ⟨grows_commit hs hp hc, .inl (hstep.session_of_ne hpq.symm),
      fun hq => List.mem_cons_of_mem _ hq, fun hq _ hin => ?_⟩
    rcases List.mem_cons.mp hin with heq | hin
    · exact hpq heq.symm
    · exact hq hin
  | purge old =>
    exact ⟨grows_of_tables rfl rfl rfl fun _ _ h => h, .inl rfl, id, fun hq _ => hq⟩

theorem kept_close {x : Session Change} (hs : Inv s) (h : s.db.session p = some x)
    (hx : x.isOpen) : Kept q s { s with db := s.db.close p .closed } := by
  by_cases hpq : p = q
  · subst hpq
    exact ⟨grows_of_tables rfl rfl rfl fun _ _ h => h,
      .inr ⟨⟨x, h, hx⟩, Database.put_session_self⟩, id, fun hq _ => hq⟩
  · exact kept_move hs hpq (shrinks_close h hx).silent

theorem kept_env (hs : Inv s) {e : Env} (h : env e s = some s') : Kept q s s' := by
  cases e with
  | tick d =>
    cases h
    exact ⟨grows_of_tables rfl rfl rfl fun _ _ h => h, .inl rfl, id, fun hq _ => hq⟩
  | drop p =>
    simp only [env] at h
    split at h <;> cases h
    · exact kept_close hs ‹_› rfl
    · exact kept_close hs ‹_› rfl
  | land p =>
    simp only [env] at h
    split at h <;> cases h
    rename_i cs hp
    have hc := hs.committing p cs hp
    by_cases hpq : p = q
    · subst hpq
      refine ⟨grows_commit (t := 0) hs (.inr hp) hc,
        .inr ⟨⟨_, hp, rfl⟩, Database.put_session_self⟩, fun hq => List.mem_cons_of_mem _ hq,
        fun _ hq => absurd hp (hq cs)⟩
    · exact kept_move hs hpq (.commit (t := 0) (.inr hp) hc)
  | giveUp p =>
    simp only [env] at h
    split at h <;> cases h
    exact kept_close hs ‹_› rfl

theorem kept_of_moves (h : protocol.Moves q s s') : Kept q s s' := by
  cases h with
  | serve hpq hinv hpre h => exact kept_move hinv hpq (serve_move hinv hpre h)
  | env hinv h => exact kept_env hinv h
  | @accept p call _ _ hpq hinv h =>
    obtain ⟨ids, n, ha, rfl⟩ := accepted h
    have hnotes : Function.update s.notes p n q = s.notes q := Function.update_of_ne hpq.symm _ _
    exact ⟨grows_of_tables rfl rfl hnotes fun r c hr =>
      (congrArg Notes.call (ha.update_eq hr)).trans hr, .inl rfl, id, fun hq _ => hq⟩

/-- An assertion that outlasts the steps of the others and the end of the own transaction. -/
def Lasting (q : Nat) (A : State → Prop) : Prop := ∀ ⦃s s'⦄, Grows q s s' → A s → A s'

theorem Lasting.stable {A : State → Prop} (h : Lasting q A) : protocol.Stable q A :=
  fun _ _ hm => h (kept_of_moves hm).toGrows

theorem Lasting.and {A B : State → Prop} (hA : Lasting q A) (hB : Lasting q B) :
    Lasting q fun s => A s ∧ B s :=
  fun _ _ hg h => ⟨hA hg h.1, hB hg h.2⟩

theorem Lasting.const (a : Prop) : Lasting q fun _ => a := fun _ _ _ h => h

/-- The call has committed nothing and never will. -/
def Untouched (q : Nat) (s : State) : Prop :=
  q ∉ s.db.committed ∧ ∀ cs, s.db.session q ≠ some (.committing cs)

def Idle (q : Nat) (s : State) : Prop := Untouched q s ∧ s.db.session q = none

/-- The call is inside its transaction, unless that was dropped, and has staged `cs`. -/
def Working (q : Nat) (cs : List Change) (s : State) : Prop :=
  Untouched q s ∧ s.db.session q ≠ none ∧
    ∀ t cs', s.db.session q = some (.active t cs') → cs' = cs

theorem stable_untouched : protocol.Stable q (Untouched q) := by
  rintro s s' hm ⟨hcommitted, hcommitting⟩
  have hk := kept_of_moves hm
  refine ⟨hk.uncommitted hcommitted hcommitting, fun cs => ?_⟩
  rcases hk.session with h | ⟨-, h⟩
  · rw [h]
    exact hcommitting cs
  · simp [h]

theorem stable_idle : protocol.Stable q (Idle q) := by
  rintro s s' hm ⟨huntouched, hnone⟩
  refine ⟨stable_untouched hm huntouched, ?_⟩
  rcases (kept_of_moves hm).session with h | ⟨⟨x, hx, -⟩, -⟩
  · rw [h, hnone]
  · simp [hnone] at hx

theorem stable_working {cs : List Change} : protocol.Stable q (Working q cs) := by
  rintro s s' hm ⟨huntouched, hsome, hcs⟩
  refine ⟨stable_untouched hm huntouched, ?_⟩
  rcases (kept_of_moves hm).session with h | ⟨-, h⟩
  · rw [h]
    exact ⟨hsome, hcs⟩
  · simp [h]

end GolangBasics.Tasks.Store
