import GolangBasics.Tasks.Store.Changes

/-! Creates, with and without an idempotency key: what they return and what that says. -/
namespace GolangBasics.Tasks.Store
open Conc Protocol

variable {q : Nat} {s s' : State}

theorem lasting_owned (key requestHash taskID : String) :
    Lasting q fun s => Owned s key requestHash taskID :=
  fun _ _ hg h => h.mono hg.history hg.call

theorem Owned.note {key requestHash taskID : String} (h : Owned s key requestHash taskID)
    {f : Notes → Notes} (hf : (f (s.notes q)).call = (s.notes q).call) :
    Owned (s.note q f) key requestHash taskID :=
  h.mono (fun _ h => h) fun p _ hp => (call_update hf p).trans hp

/-- The create has found its key taken by the task `id` and has yet to read it. -/
def Replaying (q : Nat) (id : String) (s : State) : Prop :=
  ∃ lost, (s.notes q).replay = .pending id lost

theorem lasting_replaying (id : String) : Lasting q (Replaying q id) :=
  fun _ _ hg ⟨lost, h⟩ => hg.pending id lost h

def Declined (q : Nat) (idem : Option IdempotencyKey) (out : Task × String) (err : Err)
    (s : State) : Prop :=
  Fault q err s ∨ ∃ k, idem = some k ∧
    (err = .sentinel .idempotencyKeyReused ∧ (∃ hash id, hash ≠ k.hash ∧ Owned s k.key hash id) ∨
      err = .sentinel .replay ∧ Owned s k.key k.hash out.2 ∧ Replaying q out.2 s)

theorem lasting_declined (idem : Option IdempotencyKey) (out : Task × String) (err : Err) :
    Lasting q (Declined q idem out err) := by
  rintro s s' hg (hf | ⟨k, hk, ⟨herr, hash, id, hne, ho⟩ | ⟨herr, ho, hr⟩⟩)
  · exact .inl (lasting_fault err hg hf)
  · exact .inr ⟨k, hk, .inl ⟨herr, hash, id, hne, lasting_owned _ _ _ hg ho⟩⟩
  · exact .inr ⟨k, hk, .inr ⟨herr, lasting_owned _ _ _ hg ho, lasting_replaying _ hg hr⟩⟩

/-- The create has not found its key taken. -/
def Unreplayed (q : Nat) (s : State) : Prop := (s.notes q).replay = .none

theorem lasting_unreplayed : Lasting q (Unreplayed q) := by
  intro s s' hg h
  have hsettled := hg.settled (by simp [show (s.notes q).replay = .none from h])
  exact hsettled.trans h

variable {idem : Option IdempotencyKey} {eventID : String}

theorem follows_publishCreated {t : Task} (key : Option KeyRow)
    (hkey : ∀ k, key = some k → t.id = k.taskID)
    (hw : Working q (.task (.created t q) :: key.toList.map .insertKey) s) (h : Unreplayed q s)
    (hs : Inv s) : protocol.Follows q (Prepared q (fun out e => e.row = some out.1)
      (Declined q idem) (Unreplayed q)) (publishCreated eventID t) s := by
  have hrow : (Entry.created t q).row = some (t, "").1 := rfl
  exact follows_publish (C := fun (out : Task × String) e => e.row = some out.1)
    (lasting_declined idem) lasting_unreplayed (fun _ _ _ => .inl) hrow
    (fun k hk => ⟨t, q, rfl, hkey k hk⟩) hw h hs

variable {k : IdempotencyKey}

theorem follows_taken {cs : List Change} {k' : KeyRow} (hs : Inv s) (hw : Working q cs s)
    (hk' : k' ∈ s.db.tables.keys) (hkey : k'.key = k.key)
    (hs' : s' = { s with db := s.db.acquire q [.key k.key] }.note q fun n =>
      { n with replay := .pending k'.taskID false }) :
    protocol.Follows q (Prepared q (fun out e => e.row = some out.1) (Declined q (some k))
      (Unreplayed q))
      (if k'.requestHash ≠ k.hash then
        pure ((default, ""), some (.sentinel .idempotencyKeyReused))
      else pure ((default, k'.taskID), some (.sentinel .replay))) s' := by
  have hprepared := stable_prepared (q := q) (C := fun (out : Task × String) e =>
    e.row = some out.1) (lasting_declined (some k)) lasting_unreplayed
  have howned := hs.recorded.keys k' hk'
  rw [hkey] at howned
  have howned₁ : Owned { s with db := s.db.acquire q [.key k.key] } k.key k'.requestHash
      k'.taskID := howned
  have howned₂ : Owned s' k.key k'.requestHash k'.taskID := by
    rw [hs']
    exact howned₁.note rfl
  have hw' : Working q cs s' := by
    rw [hs']
    exact hw
  split_ifs with hhash
  · exact follows_ret (hprepared _)
      ⟨.inr ⟨k, rfl, .inl ⟨rfl, _, _, hhash, howned₂⟩⟩, _, hw'⟩
  · have hhash : k'.requestHash = k.hash := by simpa using hhash
    rw [hhash] at howned₂
    refine follows_ret (hprepared _)
      ⟨.inr ⟨k, rfl, .inr ⟨rfl, howned₂, false, ?_⟩⟩, _, hw'⟩
    simp [hs', State.note]

variable {title : String}

theorem follows_claimKey {ev : String} {t : Task} (hw : Working q [.task (.created t q)] s)
    (hcall : (s.notes q).call = some (.create t.id title (some k) ev)) (h : Unreplayed q s) :
    protocol.Follows q (Prepared q (fun out e => e.row = some out.1) (Declined q (some k))
      (Unreplayed q)) (claimKey k eventID t) s := by
  unfold claimKey
  simp only [Prog.request_bind]
  refine follows_ask _ (stable_working.and ((lasting_call _).and lasting_unreplayed).stable)
    ⟨hw, hcall, h⟩ ?_ ?_
  · intro s₁ _ ⟨hw₁, hcall₁, _⟩ start cs hcs
    exact ⟨⟨t, q, hw₁.2.2 start cs hcs⟩, title, ev, hcall₁⟩
  · intro x rep s₁ s₂ hinv₁ ⟨hw₁, hcall₁, hun₁⟩ hserve hinv₂
    rcases serve_statement (by simp) rfl hw₁ hserve with
      ⟨start, -, hchanges, hans⟩ | ⟨err, aborts, rfl, -, -, hf, hw₂⟩
    · have hview : (s₁.db.view Change.apply q).keys = s₁.db.tables.keys := by
        simp [Database.view, hchanges, Database.applyAll, Change.apply, Entry.applyKeys]
      simp only [execute, hview] at hans
      split at hans
      · cases hans
      · split at hans
        · rename_i k' hk'
          cases hans
          have hkey : k'.key = k.key := by simpa using List.find?_some hk'
          simp only [Bool.false_eq_true, if_false]
          exact follows_taken hinv₁ hw₁ (List.mem_of_find?_eq_some hk') hkey rfl
        · cases hans
          let row : KeyRow := ⟨k.key, k.hash, t.id, start⟩
          have hw₂ : Working q ([.task (.created t q)] ++ [.insertKey row])
              (s₁.write q start [.task (.created t q)] [.key k.key] (.insertKey row)) :=
            working_write hw₁.1 rfl
          exact follows_publishCreated (some row) (fun k' hk' => by cases hk'; rfl) hw₂ hun₁ hinv₂
    · exact follows_ret (stable_prepared (lasting_declined (some k)) lasting_unreplayed _)
        ⟨.inl (hf.wrap _), _, hw₂⟩

theorem follows_createTx {id ev : String} (hw : Working q [] s)
    (hcall : (s.notes q).call = some (.create id title idem ev)) (h : Unreplayed q s) :
    protocol.Follows q (Prepared q (fun out e => e.row = some out.1) (Declined q idem)
      (Unreplayed q)) (createTx id title idem eventID) s := by
  unfold createTx
  simp only [Prog.request_bind]
  refine follows_ask _ (stable_working.and ((lasting_call _).and lasting_unreplayed).stable)
    ⟨hw, hcall, h⟩ ?_ ?_
  · intro s₁ _ ⟨hw₁, hcall₁, _⟩ start cs hcs
    exact ⟨hw₁.2.2 start cs hcs, idem, ev, hcall₁⟩
  · intro x rep s₁ s₂ hinv₁ ⟨hw₁, hcall₁, hun₁⟩ hserve hinv₂
    rcases serve_statement (by simp) rfl hw₁ hserve with
      ⟨start, -, hchanges, hans⟩ | ⟨err, aborts, rfl, -, -, hf, hw₂⟩
    · -- the id is fresh, so the insert finds no such task
      have hnone : rowOf id s₁.db.tables.tasks = none := by
        obtain ⟨l, hl, hrow⟩ := hinv₁.sound.life id
        rw [hl.eq_unborn (hinv₁.entriesOf_eq_nil hw₁.1.1 hcall₁)] at hrow
        exact hrow
      simp only [execute, view_nil hchanges, hnone, Option.isSome_none, Bool.false_eq_true,
        if_false] at hans
      split at hans
      · cases hans
      · cases hans
        let t : Task := ⟨id, title, false, 1, start⟩
        have hw₂ : Working q ([] ++ [.task (.created t q)])
            (s₁.write q start [] [.task id] (.task (.created t q))) := working_write hw₁.1 rfl
        cases idem with
        | none => exact follows_publishCreated (t := t) none (by simp) hw₂ hun₁ hinv₂
        | some k => exact follows_claimKey (t := t) hw₂ hcall₁ hun₁
    · exact follows_ret (stable_prepared (lasting_declined idem) lasting_unreplayed _)
        ⟨.inl (hf.wrap _), _, hw₂⟩

/-- What `Create` returns and what that says. A `lost` replay found the owner's task deleted
when it came to read it. -/
inductive Created (q : Nat) (idem : Option IdempotencyKey) (s : State) :
    Task × Bool × Option Err → Prop where
  | new {t e} (hun : Unreplayed q s) (he : e ∈ s.db.tables.history) (htx : e.tx = q)
      (hrow : e.row = some t) : Created q idem s (t, false, none)
  | replayed {t k} (hu : Untouched q s) (hread : (s.notes q).replay = .read t.id false)
      (hk : idem = some k) (ho : Owned s k.key k.hash t.id) : Created q idem s (t, true, none)
  | reused {t k hash id} (hu : Untouched q s) (hk : idem = some k) (hne : hash ≠ k.hash)
      (ho : Owned s k.key hash id) :
      Created q idem s (t, false, some (.sentinel .idempotencyKeyReused))
  | lost {t k id} (hu : Untouched q s) (hread : (s.notes q).replay = .read id true)
      (hk : idem = some k) (ho : Owned s k.key k.hash id) :
      Created q idem s (t, false,
        some (.wrap "store: replay idempotent create: " (.sentinel .notFound)))
  | failed {t err} (hf : Fault q err s)
      (hu : Untouched q s ∨ AmbiguousCommit err) :
      Created q idem s (t, false, some err)

theorem lasting_read (id : String) (lost : Bool) :
    Lasting q fun s => (s.notes q).replay = .read id lost :=
  fun _ _ hg h => (hg.settled (by simp [h])).trans h

theorem stable_created (out : Task × Bool × Option Err) :
    protocol.Stable q fun s => Created q idem s out := by
  intro s s' hm h
  have hg := (kept_of_moves hm).toGrows
  cases h with
  | new hun he htx hrow => exact .new (lasting_unreplayed hg hun) (hg.history _ he) htx hrow
  | replayed hu hread hk ho =>
    exact .replayed (stable_untouched hm hu) (lasting_read _ _ hg hread) hk
      (lasting_owned _ _ _ hg ho)
  | reused hu hk hne ho => exact .reused (stable_untouched hm hu) hk hne (lasting_owned _ _ _ hg ho)
  | lost hu hread hk ho =>
    exact .lost (stable_untouched hm hu) (lasting_read _ _ hg hread) hk (lasting_owned _ _ _ hg ho)
  | failed hf hu => exact .failed (lasting_fault _ hg hf) (hu.imp_left (stable_untouched hm))

/-- The read of a replay. The owner's task is missing exactly when it was deleted since. -/
theorem follows_readReplay {id : String} (hu : Untouched q s) (ho : Owned s k.key k.hash id)
    (hr : Replaying q id s) :
    protocol.Follows q (fun out s => Created q (some k) s out) (readReplay id) s := by
  unfold readReplay get
  simp only [Prog.request_bind, Prog.ask_bind]
  refine follows_ask _
    (stable_untouched.and ((lasting_owned k.key k.hash id).and (lasting_replaying id)).stable)
    ⟨hu, ho, hr⟩ (fun _ _ _ => trivial) ?_
  intro x rep s₁ s₂ hinv₁ ⟨hu₁, ho₁, lost, hr₁⟩ hserve _
  rcases serve_cases (by simp) hserve with hans | ⟨err, aborts, hdriver, rfl, rfl⟩
  · obtain ⟨-, hlost⟩ := hinv₁.recorded.replay q id lost hr₁
    have hread : ((s₁.note q fun n => { n with replay := n.replay.afterRead }).notes q).replay =
        .read id lost := by simp [State.note, hr₁, Replay.afterRead]
    have ho₂ : Owned (s₁.note q fun n => { n with replay := n.replay.afterRead }) k.key k.hash id :=
      ho₁.note rfl
    cases hrow : rowOf id s₁.db.tables.tasks with
    | none =>
      simp only [answer, hrow] at hans
      cases hans
      rw [hlost.mpr hrow] at hread
      exact follows_ret (stable_created _) (.lost hu₁ hread rfl ho₂)
    | some t =>
      simp only [answer, hrow] at hans
      cases hans
      obtain rfl := rowOf_id hrow
      have hlost : lost = false := by simpa [hrow] using hlost
      rw [hlost] at hread
      exact follows_ret (stable_created _) (.replayed hu₁ hread rfl ho₂)
  · have hf : Fault q err (s₁.fault q (.selectTask id) aborts) := ⟨hdriver, fault_faulted _ aborts⟩
    exact follows_ret (stable_created _)
      (.failed ((hf.wrap _).wrap _) (.inl (hu₁.fault _ aborts)))

theorem follows_create {id ev : String} (hi : Idle q s)
    (hcall : (s.notes q).call = some (.create id title idem ev)) (h : Unreplayed q s) (hs : Inv s) :
    protocol.Follows q (fun out s => Created q idem s out) (create id title idem eventID) s := by
  unfold create
  refine follows_bind ((follows_inTx ((lasting_call _).and lasting_unreplayed)
    (lasting_declined idem) lasting_unreplayed (fun _ _ _ => .inl) hi ⟨hcall, h⟩
    fun s₁ _ hw ha => follows_createTx hw ha.1 ha.2).mono ?_) hs
  rintro ⟨⟨t, rid⟩, _ | err⟩ s₁ hinv₁ hout
  · obtain ⟨hun, e, he, htx, hrow⟩ := hout
    exact follows_ret (stable_created _) (.new hun he htx hrow)
  · obtain ⟨hdeclined, hu⟩ := hout
    rcases hdeclined with hf | ⟨k, rfl, ⟨rfl, hash, id, hne, ho⟩ | ⟨rfl, ho, hr⟩⟩
    · have hdriver := hf.1
      simp only [ofDriver, Bool.and_eq_true, Bool.not_eq_true'] at hdriver
      simp only [hdriver.2, Bool.false_eq_true, if_false]
      exact follows_ret (stable_created _) (.failed hf hu)
    · have hu : Untouched q s₁ := by simpa [AmbiguousCommit] using hu
      exact follows_ret (stable_created _) (.reused hu rfl hne ho)
    · have hu : Untouched q s₁ := by simpa [AmbiguousCommit] using hu
      exact follows_readReplay hu ho hr

end GolangBasics.Tasks.Store
