import GolangBasics.Tasks.Store.Transaction

/-! Updates and deletes: a refusal reports what a statement of the call has seen. -/
namespace GolangBasics.Tasks.Store
open Conc Protocol

variable {q : Nat} {s s' : State}

def Miss (q : Nat) (expect : Option Int) (err : Err) (s : State) : Prop :=
  (err.is .notFound → none ∈ (s.notes q).saw) ∧
    (err.is .versionMismatch → (s.notes q).created →
      ∃ v w, expect = some v ∧ v ≠ w ∧ some w ∈ (s.notes q).saw)

theorem lasting_miss (expect : Option Int) (err : Err) : Lasting q (Miss q expect err) := by
  rintro s s' hg ⟨hmissing, hmismatch⟩
  refine ⟨fun h => hg.saw _ (hmissing h), fun h hcreated => ?_⟩
  rw [hg.created] at hcreated
  obtain ⟨v, w, hv, hne, hw⟩ := hmismatch h hcreated
  exact ⟨v, w, hv, hne, hg.saw _ hw⟩

theorem Fault.miss {err : Err} (h : Fault q err s) (expect : Option Int) : Miss q expect err s := by
  have hdriver := h.1
  simp only [ofDriver, Bool.and_eq_true, Bool.not_eq_true'] at hdriver
  constructor
  · simp [hdriver.1.1.1]
  · simp [hdriver.1.1.2]

/-- Why an update or delete matched no row: it met another version than the one named, or
its task, if created beforehand, is deleted. -/
def Missed (q : Nat) (id : String) (expect : Option Int) (s : State) : Prop :=
  (∃ v w, expect = some v ∧ v ≠ w ∧ some w ∈ (s.notes q).saw) ∨
    ((s.notes q).created → Gone id s.db.tables)

theorem lasting_missed (id : String) (expect : Option Int) : Lasting q (Missed q id expect) := by
  rintro s s' hg (⟨v, w, hv, hne, hw⟩ | hgone)
  · exact .inl ⟨v, w, hv, hne, hg.saw _ hw⟩
  · exact .inr fun hcreated => hg.gone id (hgone (hg.created ▸ hcreated))

def Born (q : Nat) (id : String) (s : State) : Prop :=
  (s.notes q).created → ∃ e ∈ s.db.tables.history, e.id = id

theorem lasting_born (id : String) : Lasting q (Born q id) := by
  intro s s' hg h hcreated
  obtain ⟨e, he, hid⟩ := h (hg.created ▸ hcreated)
  exact ⟨e, hg.history e he, hid⟩

theorem grows_look (id : String) (htables : s'.db.tables = s.db.tables)
    (hnotes : s'.notes = (s.look q id).notes) : Grows q s s' :=
  grows_note htables hnotes rfl rfl (fun _ h => List.mem_cons_of_mem _ h) (fun h => h) rfl

theorem look_saw (id : String) :
    (rowOf id s.db.tables.tasks).map Task.version ∈ ((s.look q id).notes q).saw := by
  simp [State.look, State.note]

variable {id : String} {expect : Option Int}

theorem missed_look (hb : Born q id s)
    (h : (rowOf id s.db.tables.tasks).filter (expected expect) = none) :
    Missed q id expect (s.look q id) := by
  cases hr : rowOf id s.db.tables.tasks with
  | none =>
    right
    intro hcreated
    have hcreated : (s.notes q).created := by simpa [State.look, State.note] using hcreated
    obtain ⟨e, he, hid⟩ := hb hcreated
    refine ⟨fun hnil => ?_, hr⟩
    have hmem : e ∈ entriesOf id s.db.tables.history :=
      List.mem_filter.mpr ⟨he, decide_eq_true hid⟩
    have hnil : entriesOf id s.db.tables.history = [] := hnil
    simp [hnil] at hmem
  | some r =>
    left
    rw [hr] at h
    cases expect with
    | none => simp [expected] at h
    | some v =>
      have hne : r.version ≠ v := by simpa [expected] using h
      have hsaw := look_saw (q := q) (s := s) id
      rw [hr] at hsaw
      exact ⟨v, r.version, rfl, hne.symm, hsaw⟩

theorem follows_missOrMismatch (hw : Working q [] s) (h : Missed q id expect s) :
    protocol.Follows q (fun out s => ∃ err, out = some err ∧ Miss q expect err s ∧ Working q [] s)
      (missOrMismatch id) s := by
  have hstable : ∀ out : Option Err, protocol.Stable q fun s => ∃ err, out = some err ∧
      Miss q expect err s ∧ Working q [] s := by
    rintro out s s' hm ⟨err, rfl, hmiss, hw⟩
    exact ⟨err, rfl, (lasting_miss expect err).stable hm hmiss, stable_working hm hw⟩
  unfold missOrMismatch
  simp only [Prog.request_bind]
  refine follows_ask _ (stable_working.and (lasting_missed id expect).stable) ⟨hw, h⟩
    (fun _ _ _ => trivial) ?_
  intro x rep s₁ s₂ _ ⟨hw₁, hmissed⟩ hserve _
  rcases serve_statement (by simp) rfl hw₁ hserve with
    ⟨t, -, hchanges, hans⟩ | ⟨err, aborts, rfl, -, -, hf, hw₂⟩
  · simp only [execute, view_nil hchanges] at hans
    cases hans
    have hg : Grows q s₁ (s₁.look q id) := grows_look id rfl rfl
    have hmissed₂ := lasting_missed id expect hg hmissed
    have hsaw := look_saw (q := q) (s := s₁) id
    cases hr : rowOf id s₁.db.tables.tasks with
    | none =>
      rw [hr] at hsaw
      exact follows_ret (hstable _) ⟨_, rfl, ⟨fun _ => hsaw, by simp [Err.is]⟩, hw₁⟩
    | some r =>
      refine follows_ret (hstable _) ⟨_, rfl, ⟨by simp [Err.is], fun _ hcreated => ?_⟩, hw₁⟩
      rcases hmissed₂ with hfound | hgone
      · exact hfound
      · have hnone := (hgone hcreated).2
        cases hnone.symm.trans hr
  · exact follows_ret (hstable _) ⟨_, rfl, (hf.wrap _).miss expect, hw₂⟩

theorem lasting_call (call : Call) : Lasting q fun s => (s.notes q).call = some call :=
  fun _ _ hg h => hg.call q call h

theorem follows_refused {α : Type} {C : α → Entry → Prop} {zero : α} (hw : Working q [] s)
    (hb : Born q id s) (h : (rowOf id s.db.tables.tasks).filter (expected expect) = none)
    (hs : Inv (s.look q id)) :
    protocol.Follows q (Prepared q C (fun _ => Miss q expect) fun _ => True)
      (missOrMismatch id >>= fun err => pure (zero, err)) (s.look q id) := by
  have hw : Working q [] (s.look q id) := hw
  refine follows_bind ((follows_missOrMismatch hw (missed_look hb h)).mono ?_) hs
  rintro _ s₁ _ ⟨err, rfl, hmiss, hw₁⟩
  exact follows_ret (stable_prepared (fun _ => lasting_miss expect) (Lasting.const _) _)
    ⟨hmiss, [], hw₁⟩

variable {eventID : String}

theorem follows_changed {α : Type} {C : α → Entry → Prop} {a : α} {e : Entry} (hC : C a e)
    (hw : Working q [.task e] s) (hs : Inv s) :
    protocol.Follows q (Prepared q C (fun _ => Miss q expect) fun _ => True)
      (enqueue eventID e.event >>= fun err => pure (a, err)) s := by
  have hw : Working q (.task e :: (none : Option KeyRow).toList.map .insertKey) s := hw
  exact follows_publish (fun _ => lasting_miss expect) (Lasting.const _)
    (fun _ _ _ hf => hf.miss expect) hC (by simp) hw trivial hs

theorem follows_updateTx {patch : Patch} {ev : String} (hw : Working q [] s)
    (hcall : (s.notes q).call = some (.update id patch expect ev)) (hb : Born q id s) :
    protocol.Follows q (Prepared q (fun t e => e.row = some t) (fun _ => Miss q expect)
      fun _ => True) (updateTx id patch expect eventID) s := by
  unfold updateTx
  simp only [Prog.request_bind]
  refine follows_ask _ (stable_working.and ((lasting_call _).and (lasting_born id)).stable)
    ⟨hw, hcall, hb⟩ ?_ ?_
  · intro s₁ _ ⟨hw₁, hcall₁, _⟩ t cs hcs
    exact ⟨hw₁.2.2 t cs hcs, ev, hcall₁⟩
  · intro x rep s₁ s₂ _ ⟨hw₁, hcall₁, hb₁⟩ hserve hinv₂
    rcases serve_statement (by simp) rfl hw₁ hserve with
      ⟨t, -, hchanges, hans⟩ | ⟨err, aborts, rfl, -, -, hf, hw₂⟩
    · simp only [execute, view_nil hchanges] at hans
      split at hans
      · rename_i r hr
        split at hans
        · cases hans
        · cases hans
          let e : Entry := .updated (updatedRow patch r) patch expect q
          have hw₂ : Working q ([] ++ [.task e])
              ((s₁.write q t [] [.task id] (.task e)).look q id) := working_write hw₁.1 rfl
          have hrow : e.row = some (updatedRow patch r) := rfl
          exact follows_changed (C := fun t e => e.row = some t) hrow hw₂ hinv₂
      · cases hans
        exact follows_refused hw₁ hb₁ ‹_› hinv₂
    · exact follows_ret (stable_prepared (fun _ => lasting_miss expect) (Lasting.const _) _)
        ⟨(hf.wrap _).miss expect, _, hw₂⟩

theorem follows_deleteTx {ev : String} (hw : Working q [] s)
    (hcall : (s.notes q).call = some (.delete id expect ev)) (hb : Born q id s) :
    protocol.Follows q (Prepared q (fun _ _ => True) (fun _ => Miss q expect) fun _ => True)
      (deleteTx id expect eventID) s := by
  unfold deleteTx
  simp only [Prog.request_bind]
  refine follows_ask _ (stable_working.and ((lasting_call _).and (lasting_born id)).stable)
    ⟨hw, hcall, hb⟩ ?_ ?_
  · intro s₁ _ ⟨hw₁, hcall₁, _⟩ t cs hcs
    exact ⟨hw₁.2.2 t cs hcs, ev, hcall₁⟩
  · intro x rep s₁ s₂ _ ⟨hw₁, hcall₁, hb₁⟩ hserve hinv₂
    rcases serve_statement (by simp) rfl hw₁ hserve with
      ⟨t, -, hchanges, hans⟩ | ⟨err, aborts, rfl, -, -, hf, hw₂⟩
    · simp only [execute, view_nil hchanges] at hans
      split at hans
      · rename_i r hr
        split at hans
        · cases hans
        · cases hans
          let e : Entry := .deleted id r.version expect q
          let keys := (s₁.db.tables.keys.filter fun k => k.taskID = id).map (Lock.key ·.key)
          have hw₂ : Working q ([] ++ [.task e])
              ((s₁.write q t [] (.task id :: keys) (.task e)).look q id) :=
            working_write hw₁.1 rfl
          exact follows_changed trivial hw₂ hinv₂
      · cases hans
        exact follows_refused hw₁ hb₁ ‹_› hinv₂
    · exact follows_ret (stable_prepared (fun _ => lasting_miss expect) (Lasting.const _) _)
        ⟨(hf.wrap _).miss expect, _, hw₂⟩

end GolangBasics.Tasks.Store
