import GolangBasics.Tasks.Store.Rely

/-! Transactions: what the statements of a call do, and what `inTx` makes of their outcome. -/
namespace GolangBasics.Tasks.Store
open Conc Protocol

variable {q : Nat} {s s' : State}

def Fault (q : Nat) (err : Err) (s : State) : Prop :=
  ofDriver err = true ∧ (s.notes q).faulted = true

theorem lasting_fault (err : Err) : Lasting q (Fault q err) :=
  fun _ _ hg h => ⟨h.1, hg.faulted h.2⟩

theorem Fault.wrap {err : Err} (h : Fault q err s) (text : String) : Fault q (.wrap text err) s := h

theorem grows_note {n : Notes} (htables : s'.db.tables = s.db.tables)
    (hnotes : s'.notes = Function.update s.notes q n) (hcall : n.call = (s.notes q).call)
    (hcreated : n.created = (s.notes q).created) (hsaw : ∀ v ∈ (s.notes q).saw, v ∈ n.saw)
    (hfaulted : (s.notes q).faulted → n.faulted) (hreplay : n.replay = (s.notes q).replay) :
    Grows q s s' := by
  have hself : s'.notes q = n := by rw [hnotes, Function.update_self]
  constructor
  · intro p call hp
    rw [hnotes, call_update hcall]
    exact hp
  · rw [hself, hcreated]
  · rw [hself]
    exact hsaw
  · rw [hself]
    exact hfaulted
  · intro id lost h
    exact ⟨lost, by rw [hself, hreplay, h]⟩
  · intro _
    rw [hself, hreplay]
  · rw [htables]
    exact fun _ => id
  · rw [htables]
    exact fun _ => id

theorem grows_fault (r : Req) (aborts : Bool) : Grows q s (s.fault q r aborts) := by
  have htables : (s.fault q r aborts).db.tables = s.db.tables := by
    unfold State.fault
    split
    · exact (shrinks_rollback q s).tables
    · exact (shrinks_abort q s aborts).tables
  have hnotes : (s.fault q r aborts).notes =
      Function.update s.notes q { s.notes q with faulted := true } := by
    unfold State.fault
    split <;> rfl
  exact grows_note htables hnotes rfl rfl (fun _ h => h) (fun _ => rfl) rfl

theorem fault_faulted (r : Req) (aborts : Bool) : ((s.fault q r aborts).notes q).faulted = true := by
  unfold State.fault State.note
  split <;> simp

theorem session_abort (aborts : Bool) : (s.abort q aborts).db.session q = s.db.session q ∨
    (∃ t cs, s.db.session q = some (.active t cs)) ∧
      (s.abort q aborts).db.session q = some .failed := by
  simp only [State.abort]
  split
  · split
    · exact .inr ⟨⟨_, _, ‹_›⟩, Database.put_session_self⟩
    · exact .inl rfl
  · exact .inl rfl

theorem Untouched.shrinks (h : Untouched q s) (hdb : Shrinks q s.db s'.db) : Untouched q s' := by
  refine ⟨?_, fun cs hcs => h.2 cs (hdb.committing cs hcs)⟩
  rw [hdb.committed]
  exact h.1

theorem Untouched.fault (h : Untouched q s) (r : Req) (aborts : Bool) :
    Untouched q (s.fault q r aborts) := by
  refine h.shrinks ?_
  unfold State.fault
  split
  · exact shrinks_rollback q s
  · exact shrinks_abort q s aborts

variable {cs : List Change}

theorem Working.fault (h : Working q cs s) {r : Req} (hr : r ≠ .commit) (aborts : Bool) :
    Working q cs (s.fault q r aborts) := by
  have hdb : (s.fault q r aborts).db = (s.abort q aborts).db := by
    unfold State.fault
    split
    · exact absurd rfl hr
    · rfl
  refine ⟨h.1.fault r aborts, ?_⟩
  rw [hdb]
  rcases session_abort aborts (q := q) (s := s) with hsame | ⟨-, hfailed⟩
  · rw [hsame]
    exact h.2
  · simp [hfailed]

variable {x : Choice}

theorem serve_cases {r : Req} {rep : Rep r} (hr : r ≠ .commit) (h : serve q r x s = some (rep, s'))
    :
    answer q s r = some (rep, s') ∨
      ∃ err aborts, ofDriver err = true ∧ rep = failure r err ∧ s' = s.fault q r aborts := by
  cases x with
  | ok => exact .inl h
  | fail err aborts =>
    simp only [serve] at h
    split at h
    · cases h
      exact .inr ⟨err, aborts, ‹_›, rfl, rfl⟩
    · cases h
  | unknown err =>
    cases r with
    | commit => exact absurd rfl hr
    | _ => cases h

theorem working_active {t : Nat} {cs' : List Change} (h : Working q cs s)
    (hq : s.db.session q = some (.active t cs')) : cs' = cs ∧ s.db.changes q = cs := by
  have heq := h.2.2 t cs' hq
  exact ⟨heq, heq ▸ Database.changes_active hq⟩

theorem working_write {t : Nat} {ks : List Lock} {c : Change} (h : Untouched q s)
    (hdb : s'.db = s.db.write q t cs ks c) : Working q (cs ++ [c]) s' := by
  have hsession : s'.db.session q = some (.active t (cs ++ [c])) := by
    rw [hdb]
    exact Database.put_session_self
  refine ⟨⟨?_, by simp [hsession]⟩, by simp [hsession], ?_⟩
  · rw [hdb]
    exact h.1
  · intro t' cs' hcs
    obtain ⟨-, rfl⟩ : t = t' ∧ cs ++ [c] = cs' := by simpa [hsession] using hcs
    rfl

/-- A statement runs in the active transaction of the call, or fails and is noted. -/
theorem serve_statement {r : Req} {rep : Rep r} (hr : r ≠ .commit)
    (hanswer : answer q s r = match s.db.session q with
      | some (.active start changes) => execute q s start changes r
      | _ => none) (hw : Working q cs s) (h : serve q r x s = some (rep, s')) :
    (∃ start, s.db.session q = some (.active start cs) ∧ s.db.changes q = cs ∧
      execute q s start cs r = some (rep, s')) ∨
    ∃ err aborts, rep = failure r err ∧ s' = s.fault q r aborts ∧ Grows q s s' ∧ Fault q err s' ∧
      Working q cs s' := by
  rcases serve_cases hr h with hans | ⟨err, aborts, hdriver, rfl, rfl⟩
  · rw [hanswer] at hans
    split at hans
    · rename_i start cs' hcs
      obtain ⟨rfl, hchanges⟩ := working_active hw hcs
      exact .inl ⟨start, hcs, hchanges, hans⟩
    · cases hans
  · exact .inr ⟨err, aborts, rfl, rfl, grows_fault r aborts,
      ⟨hdriver, fault_faulted r aborts⟩, hw.fault hr aborts⟩

variable {key : Option KeyRow}

/-- The commit of a complete transaction happened, or the call failed. -/
theorem serve_commit {rep : Rep .commit} {e : Entry} {row : OutboxRow} (hs : Inv s)
    (hw : Working q (transaction e key row) s) (hc : Complete (transaction e key row))
    (h : serve q .commit x s = some (rep, s')) : Grows q s s' ∧
      (rep = none ∧ e ∈ s'.db.tables.history ∧ e.tx = q ∨ ∃ err, rep = some err ∧ Fault q err s') := by
  cases x with
  | ok =>
    simp only [serve, answer] at h
    split at h
    · rename_i t cs hq
      obtain ⟨rfl, hchanges⟩ := working_active hw hq
      cases h
      refine ⟨grows_commit hs (.inl hq) hc, .inl ⟨rfl, ?_, ?_⟩⟩
      · show e ∈ (Database.applyAll Change.apply (transaction e key row) s.db.tables).history
        simp [applyAll_transaction]
      · exact (hs.justified q (.task e) (by simp [hchanges, transaction])).1
    · cases h
  | fail err aborts =>
    simp only [serve] at h
    split at h
    · rename_i hdriver
      cases h
      exact ⟨grows_fault .commit aborts, .inr ⟨err, rfl, hdriver, fault_faulted .commit aborts⟩⟩
    · cases h
  | unknown err =>
    simp only [serve] at h
    split at h
    · split at h
      · rename_i hdriver
        cases h
        refine ⟨grows_note rfl rfl rfl rfl (fun _ h => h) (fun _ => rfl) rfl,
          .inr ⟨err, rfl, hdriver, ?_⟩⟩
        simp [State.note]
      · cases h
    · cases h

theorem serve_rollback {rep : Rep .rollback} (h : serve q .rollback x s = some (rep, s')) :
    Grows q s s' ∧ Shrinks q s.db s'.db := by
  rcases serve_cases (by simp) h with h | ⟨err, aborts, -, -, rfl⟩
  · cases h
    have hdb := shrinks_rollback q s
    exact ⟨grows_of_tables (congrArg Tables.history hdb.tables) (congrArg Tables.tasks hdb.tables)
      rfl fun _ _ h => h, hdb⟩
  · exact ⟨grows_fault _ aborts, shrinks_abort q s aborts⟩

theorem serve_begin {rep : Rep .beginTx} (hi : Idle q s) (h : serve q .beginTx x s = some (rep, s'))
    :
    Grows q s s' ∧ (rep = none ∧ Working q [] s' ∨
      ∃ err, rep = some err ∧ Fault q err s' ∧ Untouched q s') := by
  rcases serve_cases (by simp) h with h | ⟨err, aborts, hdriver, rfl, rfl⟩
  · simp only [answer] at h
    split at h
    · cases h
      have hsession : (s.db.start q).session q = some (.active s.db.clock []) :=
        Database.put_session_self
      refine ⟨grows_of_tables rfl rfl rfl fun _ _ h => h, .inl ⟨rfl, ⟨hi.1.1, ?_⟩, ?_, ?_⟩⟩
      · simp [hsession]
      · simp [hsession]
      · intro t cs hcs
        obtain ⟨-, rfl⟩ : s.db.clock = t ∧ [] = cs := by simpa [hsession] using hcs
        rfl
    · cases h
  · exact ⟨grows_fault _ aborts,
      .inr ⟨err, rfl, ⟨hdriver, fault_faulted _ aborts⟩, hi.1.fault _ aborts⟩⟩

/-- What `fn` leaves to `inTx`: a complete transaction, or an error and its reason. -/
def Prepared {α : Type} (q : Nat) (C : α → Entry → Prop) (F : α → Err → State → Prop)
    (S : State → Prop) (out : α × Option Err) (s : State) : Prop :=
  match out.2 with
  | none => S s ∧ ∃ e key row, C out.1 e ∧ Complete (transaction e key row) ∧
      Working q (transaction e key row) s
  | some err => F out.1 err s ∧ ∃ cs, Working q cs s

/-- The outcome of a transaction: its change is committed, or nothing is, unless the commit
itself reported an error. -/
def Settled {α : Type} (q : Nat) (C : α → Entry → Prop) (F : α → Err → State → Prop)
    (S : State → Prop) (out : α × Option Err) (s : State) : Prop :=
  match out.2 with
  | none => S s ∧ ∃ e ∈ s.db.tables.history, e.tx = q ∧ C out.1 e
  | some err => F out.1 err s ∧ (Untouched q s ∨ AmbiguousCommit err)

section Transaction

variable {α : Type} {C : α → Entry → Prop} {F : α → Err → State → Prop} {S : State → Prop}

theorem stable_settled (hF : ∀ a err, Lasting q (F a err)) (hS : Lasting q S)
    (out : α × Option Err) : protocol.Stable q (Settled q C F S out) := by
  intro s s' hm h
  have hg := (kept_of_moves hm).toGrows
  unfold Settled at h ⊢
  split at h
  · obtain ⟨hs, e, he, htx, hc⟩ := h
    exact ⟨hS hg hs, e, hg.history e he, htx, hc⟩
  · obtain ⟨hf, hu⟩ := h
    exact ⟨hF _ _ hg hf, hu.imp_left (stable_untouched hm)⟩

theorem stable_prepared (hF : ∀ a err, Lasting q (F a err)) (hS : Lasting q S)
    (out : α × Option Err) : protocol.Stable q (Prepared q C F S out) := by
  intro s s' hm h
  have hg := (kept_of_moves hm).toGrows
  unfold Prepared at h ⊢
  split at h
  · obtain ⟨hs, e, key, row, hc, hcomplete, hw⟩ := h
    exact ⟨hS hg hs, e, key, row, hc, hcomplete, stable_working hm hw⟩
  · obtain ⟨hf, cs, hw⟩ := h
    exact ⟨hF _ _ hg hf, cs, stable_working hm hw⟩

theorem Settled.shrinks {out : α × Option Err} (hF : ∀ a err, Lasting q (F a err))
    (hS : Lasting q S) (hg : Grows q s s') (hdb : Shrinks q s.db s'.db)
    (h : Settled q C F S out s) : Settled q C F S out s' := by
  unfold Settled at h ⊢
  split at h
  · obtain ⟨hs, e, he, htx, hc⟩ := h
    exact ⟨hS hg hs, e, hg.history e he, htx, hc⟩
  · obtain ⟨hf, hu⟩ := h
    exact ⟨hF _ _ hg hf, hu.imp_left fun hu => hu.shrinks hdb⟩

theorem follows_rollback {out : α × Option Err} (hF : ∀ a err, Lasting q (F a err))
    (hS : Lasting q S) (h : Settled q C F S out s) :
    protocol.Follows q (Settled q C F S) (ask .rollback >>= fun _ => pure out) s := by
  simp only [Prog.request_bind]
  refine follows_ask _ (stable_settled hF hS out) h (fun _ _ _ => trivial) ?_
  intro x rep s₁ s₂ _ h₁ hserve _
  obtain ⟨hg, hdb⟩ := serve_rollback hserve
  exact follows_ret (stable_settled hF hS out) (h₁.shrinks hF hS hg hdb)

theorem follows_inTx {zero : α} {fn : Tx (α × Option Err)} {A : State → Prop} (hA : Lasting q A)
    (hF : ∀ a err, Lasting q (F a err)) (hS : Lasting q S)
    (hfault : ∀ a err s, Fault q err s → F a err s) (hs : Idle q s) (h : A s)
    (hfn : ∀ s, Inv s → Working q [] s → A s → protocol.Follows q (Prepared q C F S) fn s) :
    protocol.Follows q (Settled q C F S) (inTx zero fn) s := by
  unfold inTx
  simp only [Prog.request_bind]
  refine follows_ask _ (stable_idle.and hA.stable) ⟨hs, h⟩ (fun _ _ _ => trivial) ?_
  intro x rep s₁ s₂ _ ⟨hi, ha⟩ hserve hinv₂
  obtain ⟨hg, ⟨rfl, hw⟩ | ⟨err, rfl, hf, hu⟩⟩ := serve_begin hi hserve
  · refine follows_bind ((hfn s₂ hinv₂ hw (hA hg ha)).mono ?_) hinv₂
    rintro ⟨a, _ | err⟩ s₃ hinv₃ hout
    · obtain ⟨hsS, e, key, row, hC, hcomplete, hw₃⟩ := hout
      refine follows_ask (fun s => Working q (transaction e key row) s ∧ S s)
        (stable_working.and hS.stable) ⟨hw₃, hsS⟩ ?_ ?_
      · intro s₄ _ ⟨hw₄, _⟩ t cs hcs
        exact (hw₄.2.2 t cs hcs).symm ▸ hcomplete
      · intro x rep s₄ s₅ hinv₄ ⟨hw₄, hS₄⟩ hserve _
        obtain ⟨hg, ⟨rfl, he, htx⟩ | ⟨err, rfl, hf⟩⟩ := serve_commit hinv₄ hw₄ hcomplete hserve
        · exact follows_rollback hF hS ⟨hS hg hS₄, e, he, htx, hC⟩
        · exact follows_rollback hF hS ⟨hfault a _ s₅ (hf.wrap _), .inr ⟨err, rfl⟩⟩
    · obtain ⟨hf, cs, hw₃⟩ := hout
      exact follows_rollback hF hS ⟨hf, .inl hw₃.1⟩
  · exact follows_ret (stable_settled hF hS _)
      ⟨hfault zero _ s₂ (hf.wrap "store: begin: "), .inl hu⟩

end Transaction

def Enqueued (q : Nat) (e : Entry) (key : Option KeyRow) (err : Option Err) (s : State) : Prop :=
  match err with
  | none => ∃ row : OutboxRow, row.event = e.event ∧ Working q (transaction e key row) s
  | some err => Fault q err s ∧ ∃ cs, Working q cs s

theorem stable_enqueued {e : Entry} (err : Option Err) :
    protocol.Stable q (Enqueued q e key err) := by
  intro s s' hm h
  unfold Enqueued at h ⊢
  split at h
  · obtain ⟨row, hrow, hw⟩ := h
    exact ⟨row, hrow, stable_working hm hw⟩
  · obtain ⟨hf, cs, hw⟩ := h
    exact ⟨(lasting_fault _).stable hm hf, cs, stable_working hm hw⟩

theorem follows_enqueue {e : Entry} {eventID : String} {A : State → Prop} (hA : Lasting q A)
    (hw : Working q (.task e :: key.toList.map .insertKey) s) (h : A s) :
    protocol.Follows q (fun err s => Enqueued q e key err s ∧ A s) (enqueue eventID e.event) s := by
  unfold enqueue
  simp only [Prog.request_bind]
  refine follows_ask _ (stable_working.and hA.stable) ⟨hw, h⟩ ?_ ?_
  · intro s₁ _ ⟨hw₁, _⟩ t cs hcs
    exact ⟨e, by simp [hw₁.2.2 t cs hcs], rfl⟩
  · intro x rep s₁ s₂ _ ⟨hw₁, ha₁⟩ hserve _
    rcases serve_statement (by simp) rfl hw₁ hserve with
      ⟨t, -, -, hans⟩ | ⟨err, aborts, rfl, -, hg, hf, hw₂⟩
    · cases hans
      have hw₂ : Working q ((.task e :: key.toList.map .insertKey) ++
            [.enqueue ⟨s₁.nextID, eventID, e.event, q⟩])
          { s₁.write q t (.task e :: key.toList.map .insertKey) []
            (.enqueue ⟨s₁.nextID, eventID, e.event, q⟩) with nextID := s₁.nextID + 1 } :=
        working_write hw₁.1 rfl
      refine follows_ret ((stable_enqueued none).and hA.stable) ⟨⟨_, rfl, hw₂⟩, hA ?_ ha₁⟩
      exact grows_of_tables rfl rfl rfl fun _ _ h => h
    · exact follows_ret ((stable_enqueued (some _)).and hA.stable)
        ⟨⟨hf.wrap _, _, hw₂⟩, hA hg ha₁⟩

/-- The event is the last statement of a transaction that has made its changes. -/
theorem follows_publish {α : Type} {C : α → Entry → Prop} {F : α → Err → State → Prop}
    {S : State → Prop} (hF : ∀ a err, Lasting q (F a err)) (hS : Lasting q S)
    (hfault : ∀ a err s, Fault q err s → F a err s) {a : α} {e : Entry} {eventID : String}
    (hC : C a e) (hkey : ∀ k, key = some k → ∃ r tx, e = .created r tx ∧
      r.id = k.taskID) (hw : Working q (.task e :: key.toList.map .insertKey) s) (h : S s)
    (hs : Inv s) : protocol.Follows q (Prepared q C F S)
      (enqueue eventID e.event >>= fun err => pure (a, err)) s := by
  refine follows_bind ((follows_enqueue hS hw h).mono ?_) hs
  rintro (_ | err) s₁ _ ⟨hout, hS₁⟩
  · obtain ⟨row, hrow, hw₁⟩ := hout
    exact follows_ret (stable_prepared hF hS _)
      ⟨hS₁, e, key, row, hC, ⟨e, key, row, rfl, hrow, hkey⟩, hw₁⟩
  · obtain ⟨hf, cs, hw₁⟩ := hout
    exact follows_ret (stable_prepared hF hS _) ⟨hfault a err s₁ hf, cs, hw₁⟩

end GolangBasics.Tasks.Store
