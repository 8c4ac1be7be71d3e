import GolangBasics.Tasks.Store.Invariant

/-! What the calls of the store have staged and on record, and that a commit keeps both in
order. -/
namespace GolangBasics.Tasks.Store
open Conc List Option

def Entry.Asked : Entry → Option Call → Prop
  | created t _, call => ∃ idem eventID, call = some (.create t.id t.title idem eventID)
  | updated t patch expect _, call => ∃ eventID, call = some (.update t.id patch expect eventID)
  | deleted id _ expect _, call => ∃ eventID, call = some (.delete id expect eventID)

/-- What a transaction has staged still fits when it commits: it holds the rows. -/
def Justified (s : State) (p : Nat) : Change → Prop
  | .task e => e.tx = p ∧ s.db.locks (.task e.id) = some p ∧ e.Fits s.db.tables ∧
      e.Asked (s.notes p).call
  | .insertKey k => s.db.locks (.key k.key) = some p ∧ (∀ k' ∈ s.db.tables.keys, k'.key ≠ k.key) ∧
      ∃ title eventID, (s.notes p).call =
        some (.create k.taskID title (some ⟨k.key, k.requestHash⟩) eventID)
  | .enqueue row => row.tx = p ∧ s.db.locks (.task row.event.aggregateID) = some p ∧
      (∀ o ∈ s.db.tables.outbox, o.event.aggregateID = row.event.aggregateID → o.id < row.id) ∧
      row.id < s.nextID

def Complete (cs : List Change) : Prop :=
  ∃ e key row, cs = transaction e key row ∧ row.event = e.event ∧
    ∀ k, key = some k → ∃ r tx, e = .created r tx ∧ r.id = k.taskID

/-- The key was recorded by the create of the task. -/
def Owned (s : State) (key requestHash taskID : String) : Prop :=
  ∃ t q title eventID, Entry.created t q ∈ s.db.tables.history ∧ t.id = taskID ∧
    (s.notes q).call = some (.create taskID title (some ⟨key, requestHash⟩) eventID)

structure Recorded (s : State) : Prop where
  committed : ∀ p, p ∈ s.db.committed ↔ p ∈ s.db.tables.history.map Entry.tx
  once : (s.db.tables.history.map Entry.tx).Nodup
  asked : ∀ e ∈ s.db.tables.history, e.Asked (s.notes e.tx).call
  ids : ∀ p id title idem ev, (s.notes p).call = some (.create id title idem ev) → id ∈ s.ids
  fresh : ∀ p q id title title' idem idem' ev ev',
    (s.notes p).call = some (.create id title idem ev) →
    (s.notes q).call = some (.create id title' idem' ev') → p = q
  keys : ∀ k ∈ s.db.tables.keys, Owned s k.key k.requestHash k.taskID
  replay : ∀ p id lost, (s.notes p).replay = .pending id lost →
    entriesOf id s.db.tables.history ≠ [] ∧ (lost = true ↔ rowOf id s.db.tables.tasks = none)

structure Inv (s : State) : Prop where
  wf : s.db.Wf
  sound : Sound s.db.tables
  seq : ∀ o ∈ s.db.tables.outbox, o.id < s.nextID
  justified : ∀ p, ∀ c ∈ s.db.changes p, Justified s p c
  committing : ∀ p cs, s.db.session p = some (.committing cs) → Complete cs
  recorded : Recorded s

variable {p q : Nat} {s s' : State} {c : Change}

theorem Justified.mono (h : Justified s p c)
    (hlocks : ∀ k, s.db.locks k = some p → s'.db.locks k = some p)
    (htables : s'.db.tables = s.db.tables) (hnext : s.nextID ≤ s'.nextID)
    (hcall : (s'.notes p).call = (s.notes p).call) : Justified s' p c := by
  cases c with
  | task e =>
    obtain ⟨htx, hlock, hfits, hasked⟩ := h
    exact ⟨htx, hlocks _ hlock, htables ▸ hfits, hcall ▸ hasked⟩
  | insertKey k =>
    obtain ⟨hlock, hnew, hasked⟩ := h
    exact ⟨hlocks _ hlock, htables ▸ hnew, hcall ▸ hasked⟩
  | enqueue row =>
    obtain ⟨htx, hlock, hid, hseq⟩ := h
    exact ⟨htx, hlocks _ hlock, htables ▸ hid, by omega⟩

theorem Owned.mono {key requestHash taskID : String} (h : Owned s key requestHash taskID)
    (hhistory : ∀ e ∈ s.db.tables.history, e ∈ s'.db.tables.history)
    (hcall : ∀ q call, (s.notes q).call = some call → (s'.notes q).call = some call) :
    Owned s' key requestHash taskID := by
  obtain ⟨t, q, title, ev, hmem, hid, hq⟩ := h
  exact ⟨t, q, title, ev, hhistory _ hmem, hid, hcall _ _ hq⟩

variable {key : Option KeyRow} {row : OutboxRow}

theorem Justified.frame {e : Entry} (hqp : q ≠ p)
    (hjust : ∀ c ∈ transaction e key row, Justified s p c) (hevent : row.event = e.event)
    (h : Justified s q c) : Justified (s.commit p (transaction e key row)) q c := by
  have hlocks : ∀ k, s.db.locks k = some q →
      (s.commit p (transaction e key row)).db.locks k = some q := by
    intro k hk
    have hne : s.db.locks k ≠ some p := by
      rw [hk]
      simpa using hqp
    show (s.db.close p .closed).locks k = some q
    rw [Database.close_locks, if_neg hne, hk]
  have hne : ∀ {k k' : Lock}, s.db.locks k = some p → s.db.locks k' = some q → k ≠ k' := by
    rintro k k' hk hk' rfl
    exact hqp (some.inj (hk'.symm.trans hk))
  have htables : (s.commit p (transaction e key row)).db.tables =
      Database.applyAll Change.apply (transaction e key row) s.db.tables := rfl
  obtain ⟨-, hlock, -, -⟩ := hjust (.task e) (by simp [transaction])
  cases c with
  | task e' =>
    obtain ⟨htx, hlock', hfits, hasked⟩ := h
    have hid : e.id ≠ e'.id := fun heq => hne hlock hlock' (heq ▸ rfl)
    exact ⟨htx, hlocks _ hlock', htables ▸ hfits.frame hid key row, hasked⟩
  | insertKey k =>
    obtain ⟨hlock', hnew, hasked⟩ := h
    refine ⟨hlocks _ hlock', fun k' hk' => ?_, hasked⟩
    rw [htables, applyAll_transaction] at hk'
    rcases mem_append.mp hk' with hk' | hk'
    · exact hnew k' ((e.applyKeys_sublist _).subset hk')
    · have hk' : key = some k' := by simpa using hk'
      obtain ⟨hlock'', -⟩ := hjust (.insertKey k') (by simp [transaction, hk'])
      exact fun heq => hne hlock'' hlock' (heq ▸ rfl)
  | enqueue row' =>
    obtain ⟨htx, hlock', hid, hseq⟩ := h
    refine ⟨htx, hlocks _ hlock', fun o ho hsame => ?_, hseq⟩
    rw [htables, applyAll_transaction] at ho
    rcases mem_append.mp ho with ho | ho
    · exact hid o ho hsame
    · obtain rfl := mem_singleton.mp ho
      rw [hevent, e.event_aggregateID] at hsame
      exact absurd (hsame ▸ rfl) (hne hlock hlock')

/-- A replay that has yet to read its task learns of the task's deletion. -/
theorem replay_commit {e : Entry} (h : Recorded s) (hfits : e.Fits s.db.tables) {id : String}
    {lost : Bool} (hq : (s.notes q).replay.afterCommit (transaction e key row) = .pending id lost) :
    entriesOf id (s.db.tables.history ++ [e]) ≠ [] ∧
      (lost = true ↔ rowOf id (e.applyTasks s.db.tables.tasks) = none) := by
  have hstart : ∃ l, (s.notes q).replay = .pending id l ∧
      lost = (l || Change.deletes id (.task e)) := by
    cases hr : (s.notes q).replay with
    | pending id' l =>
      rw [hr, Replay.afterCommit, transaction_deletes] at hq
      obtain ⟨rfl, rfl⟩ : id' = id ∧ (l || Change.deletes id' (.task e)) = lost := by
        simpa using hq
      exact ⟨l, rfl, rfl⟩
    | _ => simp [hr, Replay.afterCommit] at hq
  obtain ⟨l, hl, rfl⟩ := hstart
  obtain ⟨hentries, hlost⟩ := h.replay q id l hl
  refine ⟨fun hnil => hentries ?_, ?_⟩
  · simp only [entriesOf, filter_append] at hnil
    exact (append_eq_nil_iff.mp hnil).1
  · cases l with
    | true =>
      have hgone := Gone.commit ⟨hentries, hlost.mp rfl⟩ hfits key row
      rw [applyAll_transaction] at hgone
      simpa using hgone.2
    | false =>
      have hsome : (rowOf id s.db.tables.tasks).isSome := by
        rw [isSome_iff_ne_none]
        exact fun hnone => by simpa using hlost.mpr hnone
      simpa using (rowOf_applyTasks_eq_none hfits hsome).symm

theorem recorded_commit {e : Entry} (hs : Inv s) (hp : p ∉ s.db.committed)
    (hjust : ∀ c ∈ transaction e key row, Justified s p c)
    (hkey : ∀ k, key = some k → ∃ r tx, e = .created r tx ∧ r.id = k.taskID) :
    Recorded (s.commit p (transaction e key row)) := by
  have h := hs.recorded
  obtain ⟨htx, -, hfits, hasked⟩ := hjust (.task e) (by simp [transaction])
  have htables : (s.commit p (transaction e key row)).db.tables =
      Database.applyAll Change.apply (transaction e key row) s.db.tables := rfl
  rw [applyAll_transaction] at htables
  have hcall : ∀ q, ((s.commit p (transaction e key row)).notes q).call = (s.notes q).call :=
    fun _ => rfl
  have hhistory : (s.commit p (transaction e key row)).db.tables.history =
      s.db.tables.history ++ [e] := by rw [htables]
  have howned : ∀ key' hash id, Owned s key' hash id →
      Owned (s.commit p (transaction e key row)) key' hash id := by
    intro key' hash id ho
    refine ho.mono (fun x hx => ?_) fun q call hq => hq
    rw [hhistory]
    exact mem_append_left _ hx
  constructor
  · intro q
    show q ∈ p :: s.db.committed ↔ _
    rw [hhistory, mem_cons, h.committed q]
    simp [htx, or_comm]
  · rw [hhistory, map_append, nodup_append]
    refine ⟨h.once, by simp, fun x hx y hy hxy => ?_⟩
    have hy : y = p := by simpa [htx] using hy
    exact hp ((h.committed p).mpr (hy ▸ hxy ▸ hx))
  · intro x hx
    rw [hhistory] at hx
    rw [hcall]
    rcases mem_append.mp hx with hx | hx
    · exact h.asked x hx
    · obtain rfl := mem_singleton.mp hx
      rw [htx]
      exact hasked
  · exact h.ids
  · exact h.fresh
  · intro k hk
    rw [htables] at hk
    rcases mem_append.mp hk with hold | hnew
    · exact howned _ _ _ (h.keys k ((e.applyKeys_sublist _).subset hold))
    · have hnew : key = some k := by simpa using hnew
      obtain ⟨r, tx, rfl, hid⟩ := hkey k hnew
      obtain ⟨-, -, title, ev, hcreate⟩ := hjust (.insertKey k) (by simp [transaction, hnew])
      obtain rfl : tx = p := htx
      exact ⟨r, tx, title, ev, by simp [hhistory], hid, hcreate⟩
  · intro q id lost hq
    rw [htables]
    exact replay_commit h hfits hq

theorem inv_commit {cs : List Change} {t : Nat} (hs : Inv s)
    (hp : s.db.session p = some (.active t cs) ∨ s.db.session p = some (.committing cs))
    (hc : Complete cs) : Inv (s.commit p cs) := by
  have hstep : s.db.Step Change.apply p (s.db.commit Change.apply p cs) := .commit hp
  have hcs : s.db.changes p = cs := Database.changes_of_open hp
  have hjust : ∀ c ∈ cs, Justified s p c := hcs ▸ hs.justified p
  obtain ⟨e, key, row, rfl, hevent, hkey⟩ := hc
  obtain ⟨htx, -, hfits, -⟩ := hjust (.task e) (by simp [transaction])
  obtain ⟨hrowtx, -, hid, hseq⟩ := hjust (.enqueue row) (by simp [transaction])
  have hkeys : ∀ k, key = some k → (∀ k' ∈ s.db.tables.keys, k'.key ≠ k.key) ∧
      ∃ r tx, e = .created r tx ∧ r.id = k.taskID := by
    intro k hk
    obtain ⟨-, hfresh, -⟩ := hjust (.insertKey k) (by simp [transaction, hk])
    exact ⟨hfresh, hkey k hk⟩
  constructor
  · exact hstep.wf hs.wf
  · exact hs.sound.commit hfits hevent (hrowtx.trans htx.symm) hid hkeys
  · intro o ho
    have ho : o ∈ (Database.applyAll Change.apply (transaction e key row) s.db.tables).outbox := ho
    rw [applyAll_transaction] at ho
    rcases mem_append.mp ho with ho | ho
    · exact hs.seq o ho
    · obtain rfl := mem_singleton.mp ho
      exact hseq
  · intro q c hc
    obtain ⟨hqp, hc⟩ := Database.mem_changes_commit hc
    exact (hs.justified q c hc).frame hqp hjust hevent
  · intro q cs hq
    exact hs.committing q cs (Database.session_of_commit hq rfl).2
  · exact recorded_commit hs (hstep.not_committed hs.wf) hjust hkey

end GolangBasics.Tasks.Store
