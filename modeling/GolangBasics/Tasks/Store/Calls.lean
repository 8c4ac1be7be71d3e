import GolangBasics.Tasks.Store.Creates

/-! The store's methods follow the protocol, and what they return says what they did. -/
namespace GolangBasics.Tasks.Store
open Conc Protocol

variable {q : Nat} {s s' : State}

def Returned (q : Nat) (call : Call) (res : Result) (s : State) : Prop :=
  match call with
  | .create _ _ idem _ => Created q idem s (res.task, res.replayed, res.err)
  | .update _ _ expect _ => res.replayed = false ∧
      Settled q (fun t e => e.row = some t) (fun _ => Miss q expect) (fun _ => True)
        (res.task, res.err) s
  | .delete _ expect _ => res.replayed = false ∧
      Settled q (fun (_ : Unit) _ => True) (fun _ => Miss q expect) (fun _ => True)
        ((), res.err) s
  | .get _ | .purgeIdempotencyKeys _ => Untouched q s

theorem follows_untouched {r : Req} {k : Rep r → Tx Result} (hpre : ∀ s, pre q r s)
    (hr : r ≠ .commit) (hanswer : ∀ s rep s', Untouched q s → answer q s r = some (rep, s') →
      Untouched q s') (hk : ∀ rep, ∃ a, k rep = .ret a) (h : Untouched q s) :
    protocol.Follows q (fun _ => Untouched q) (.ask r k) s := by
  refine follows_ask _ stable_untouched h (fun s₁ _ _ => hpre s₁) ?_
  intro x rep s₁ s₂ _ h₁ hserve _
  obtain ⟨a, ha⟩ := hk rep
  rw [ha]
  refine follows_ret stable_untouched ?_
  rcases serve_cases hr hserve with hans | ⟨err, aborts, -, -, rfl⟩
  · exact hanswer s₁ rep s₂ h₁ hans
  · exact h₁.fault _ aborts

theorem follows_run {call : Call} (hs : Inv s) (h : accept q call s = some s') :
    protocol.Follows q (Returned q call) call.run s' := by
  have hs' := accept_inv hs h
  obtain ⟨ids, n, ha, rfl⟩ := accepted h
  have hself : Function.update s.notes q n q = n := Function.update_self ..
  have hcall : (Function.update s.notes q n q).call = some call :=
    (congrArg Notes.call hself).trans ha.asked
  have hidle : Idle q ⟨s.db, s.nextID, ids, Function.update s.notes q n⟩ := by
    refine ⟨⟨fun hin => ?_, by simp [ha.idle]⟩, ha.idle⟩
    have hclosed := hs.wf.committed q hin
    simp [ha.idle] at hclosed
  have hun : Unreplayed q ⟨s.db, s.nextID, ids, Function.update s.notes q n⟩ :=
    (congrArg Notes.replay hself).trans ha.replay
  have hborn : ∀ id, call.taskID = some id →
      Born q id ⟨s.db, s.nextID, ids, Function.update s.notes q n⟩ := by
    intro id hid hcreated
    obtain ⟨e, he, hid'⟩ := ha.created ((congrArg Notes.created hself).symm.trans hcreated)
    exact ⟨e, he, Option.some.inj (hid'.symm.trans hid)⟩
  cases call with
  | create id title idem ev =>
    refine follows_bind ((follows_create hidle hcall hun hs').mono ?_) hs'
    rintro ⟨t, replayed, err⟩ s₁ _ hout
    exact follows_ret (stable_created _) hout
  | update id patch expect ev =>
    have hF : ∀ (_ : Task) err, Lasting q (Miss q expect err) := fun _ => lasting_miss expect
    refine follows_bind ((follows_inTx ((lasting_call _).and (lasting_born id)) hF
      (Lasting.const True) (fun _ _ _ hf => hf.miss expect) hidle ⟨hcall, hborn id rfl⟩
      fun s₁ _ hw ha => follows_updateTx hw ha.1 ha.2).mono ?_) hs'
    rintro ⟨t, err⟩ s₁ _ hout
    have hstable := stable_settled (C := fun t e => e.row = some t) hF (Lasting.const True) (t, err)
    exact follows_ret ((Stable.const _).and hstable) ⟨rfl, hout⟩
  | delete id expect ev =>
    have hF : ∀ (_ : Unit) err, Lasting q (Miss q expect err) := fun _ => lasting_miss expect
    refine follows_bind ((follows_inTx ((lasting_call _).and (lasting_born id)) hF
      (Lasting.const True) (fun _ _ _ hf => hf.miss expect) hidle ⟨hcall, hborn id rfl⟩
      fun s₁ _ hw ha => follows_deleteTx hw ha.1 ha.2).mono ?_) hs'
    rintro ⟨u, err⟩ s₁ _ hout
    have hstable := stable_settled (C := fun _ _ => True) hF (Lasting.const True) ((), err)
    exact follows_ret ((Stable.const _).and hstable) ⟨rfl, hout⟩
  | get id =>
    refine follows_untouched (r := .selectTask id) (fun _ => trivial) (by simp) ?_ ?_ hidle.1
    · intro s₁ rep s₂ hu hans
      cases hans
      exact hu
    · rintro (err | _ | t) <;> exact ⟨_, rfl⟩
  | purgeIdempotencyKeys ttl =>
    refine follows_untouched (r := .deleteKeys ttl) (fun _ => trivial) (by simp) ?_ ?_ hidle.1
    · intro s₁ rep s₂ hu hans
      simp only [answer] at hans
      split at hans
      · cases hans
      · cases hans
        exact hu
    · rintro (err | n) <;> exact ⟨_, rfl⟩

theorem inv_init : Inv State.init := by
  constructor
  · exact ⟨by simp [State.init], by simp [State.init]⟩
  · exact ⟨fun _ => ⟨.unborn, .unborn, rfl⟩, rfl, List.Pairwise.nil, List.nodup_nil,
      by simp [State.init]⟩
  · simp [State.init]
  · simp [State.init, Database.changes]
  · simp [State.init]
  · constructor <;> simp [State.init]

/-- Every reachable state satisfies the invariant, and every returned call has its outcome. -/
theorem holds_of_run {c : Conc.Config Nat Req Rep State Call Result}
    (hc : calls.Reachable State.init c) : protocol.Holds Returned c := by
  refine holds_of_reachable ?_ (fun p call s s' hs h => follows_run hs h) hc
  exact inv_init

end GolangBasics.Tasks.Store
