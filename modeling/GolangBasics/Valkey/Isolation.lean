import GolangBasics.Valkey.Flights

/-! A caller of `Aside` that fails although its own context is live: it has joined a load that
took an earlier deadline over from its first caller. -/
namespace GolangBasics.Valkey.Deadlines
open Conc Option
open Protocol (Stable follows_ret follows_ask follows_bind)

variable {V : Type} {s s' : State V} {p q : Nat}
  [Inhabited V] {key : String} {joins : Option Nat → Option Nat → Bool}

variable {x : Choice V}

theorem serve_of_asidesIf {r : Req V} {y : Rep V r × State V}
    (h : (asidesIf key joins).serve p r x s = some y) :
    s.mayJoin joins p r ∧ serve p r x s = some y := by
  simp only [asidesIf] at h
  split at h
  · exact ⟨‹_›, h⟩
  · cases h

/-- The only requests that change the state are those that join and those that end a load. -/
theorem serve_cases {r : Req V} {rep : Rep V r}
    (h : (asidesIf key joins).serve p r x s = some (rep, s')) : s' = s ∨
    (∃ replica ctx, r = .doChan replica ∧ s.contexts p = some ctx ∧
      (∀ f, s.flights replica = some f → joins f.context.deadline ctx.deadline) ∧
      s' = s.join p replica ctx) ∨
    ∃ replica res f, r = .finish replica res ∧ s.flights replica = some f ∧
      s' = s.deliver replica f res := by
  obtain ⟨hjoin, h⟩ := serve_of_asidesIf h
  cases r with
  | get =>
    cases x <;> simp only [serve, reduceCtorEq] at h
    exact .inl (Prod.mk.inj (some.inj h)).2.symm
  | setNX v =>
    cases x <;> simp only [serve, reduceCtorEq] at h
    exact .inl (Prod.mk.inj (some.inj h)).2.symm
  | setTombstone ttl => cases x <;> cases h
  | doChan replica =>
    cases x <;> simp only [serve, reduceCtorEq] at h
    obtain ⟨ctx, hctx, heq⟩ := map_eq_some_iff.mp h
    obtain ⟨-, rfl⟩ := Prod.mk.inj heq
    refine .inr (.inl ⟨replica, ctx, rfl, hctx, fun f hf => ?_, rfl⟩)
    simpa [State.mayJoin, State.deadline, hf, hctx] using hjoin
  | await =>
    cases x <;> simp only [serve, reduceCtorEq] at h
    all_goals
      obtain ⟨_, _, heq⟩ := map_eq_some_iff.mp h
      exact .inl (Prod.mk.inj heq).2.symm
  | finish replica res =>
    cases x <;> simp only [serve, reduceCtorEq] at h
    obtain ⟨f, hf, heq⟩ := map_eq_some_iff.mp h
    exact .inr (.inr ⟨replica, res, f, rfl, hf, (Prod.mk.inj heq).2.symm⟩)
  | source r =>
    cases x <;> simp only [serve, reduceCtorEq] at h
    · obtain ⟨ctx, -, h⟩ := bind_eq_some_iff.mp h
      split at h
      · cases h
      · exact .inl (Prod.mk.inj (some.inj h)).2.symm
    · obtain ⟨ctx, -, h⟩ := bind_eq_some_iff.mp h
      obtain ⟨_, _, heq⟩ := map_eq_some_iff.mp h
      exact .inl (Prod.mk.inj heq).2.symm

theorem ages_serve {r : Req V} {rep : Rep V r}
    (h : (asidesIf key joins).serve p r x s = some (rep, s')) : Ages s s' := by
  obtain rfl | ⟨replica, ctx, -, -, -, rfl⟩ | ⟨replica, res, f, -, -, rfl⟩ := serve_cases h
  all_goals exact Ages.of_eq rfl (Nat.le_refl _)

/-- A load is ended by its own goroutine, and with an error only when its context is over. -/
def pre (p : Nat) : Req V → State V → Prop
  | .finish replica res, s => Runs p replica (∃ err, res = .error err) s
  | _, _ => True

theorem serve_inv (hjoins : ∀ d₁ d₂, joins d₁ d₂ → Shelters d₁ d₂) {r : Req V} {rep : Rep V r}
    (hs : Inv s) (hpre : pre p r s) (h : (asidesIf key joins).serve p r x s = some (rep, s')) :
    Inv s' := by
  obtain rfl | ⟨replica, ctx, -, hctx, hmay, rfl⟩ | ⟨replica, res, f, rfl, hf, rfl⟩ := serve_cases h
  · exact hs
  · exact hs.join hctx fun f hf => hjoins _ _ (hmay f hf)
  · obtain ⟨f', hf', -, hended⟩ := hpre
    obtain rfl : f = f' := some.inj (hf.symm.trans hf')
    exact hs.deliver hf fun err herr => hended ⟨err, herr⟩

def protocol (key : String) (hjoins : ∀ d₁ d₂, joins d₁ d₂ → Shelters d₁ d₂) :
    Protocol (asidesIf (V := V) key joins) where
  inv := Inv
  pre := pre
  serve_inv := serve_inv hjoins
  env_inv hs h := hs.env h
  accept_inv hs h := hs.accept h

variable {hjoins : ∀ d₁ d₂, joins d₁ d₂ → Shelters d₁ d₂}

theorem stable_ended : (protocol (V := V) key hjoins).Stable q fun s => s.ended q := by
  intro s s' hm hended
  cases hm with
  | serve _ _ _ h => exact (ages_serve h).ended hended
  | env _ h => exact (ages_env h).ended hended
  | accept _ _ h => exact (ages_accept h).ended hended

theorem stable_runs (replica : Nat) (failed : Prop) :
    (protocol (V := V) key hjoins).Stable q (Runs q replica failed) := by
  intro s s' hm hruns
  cases hm with
  | env _ h => exact hruns.env h
  | accept _ _ h => exact hruns.accept h
  | @serve p r x _ rep _ hpq _ hpre h =>
    obtain rfl | ⟨r, ctx, -, -, -, rfl⟩ | ⟨r, res, f, rfl, hf, rfl⟩ := serve_cases h
    · exact hruns
    · exact hruns.join
    · obtain ⟨f', hf', hp, -⟩ : Runs p r _ s := hpre
      obtain ⟨g, hg, hq, hended⟩ := hruns
      have hr : replica ≠ r := by
        rintro rfl
        obtain rfl : g = f' := some.inj (hg.symm.trans hf')
        exact hpq (some.inj (hp.symm.trans hq))
      exact ⟨g, by simpa [State.deliver, Function.update_of_ne hr] using hg, hq, hended⟩

def Returned (q : Nat) (out : V × Bool × Option Err) (s : State V) : Prop :=
  out.2.2 ≠ none → s.ended q

theorem stable_returned (out : V × Bool × Option Err) :
    (protocol key hjoins).Stable q (Returned q out) :=
  fun _ _ hm h hout => stable_ended hm (h hout)

theorem follows_found (v : V) (hit : Bool) :
    (protocol key hjoins).Follows q (Returned q) (.ret (v, hit, none)) s :=
  follows_ret (stable_returned _) fun h => absurd rfl h

/-- An error comes from the context of the caller, or from a load whose context is over. -/
theorem follows_share (replica : Nat) :
    (protocol (V := V) key hjoins).Follows q (Returned q) (share replica) s := by
  unfold share
  simp only [Prog.request_bind]
  refine follows_ask _ (Stable.const True) trivial (fun _ _ _ => trivial) ?_
  intro _ _ _ s₁ _ _ _ _
  refine follows_ask _ (Stable.const True) trivial (fun _ _ _ => trivial) ?_
  intro x rep s₂ s₃ hinv _ hserve _
  cases rep with
  | ok v => exact follows_found v false
  | error err =>
    have hended : s₂.ended q ∧ s₃ = s₂ := by
      have hserve := (serve_of_asidesIf hserve).2
      cases x <;> simp only [serve, reduceCtorEq] at hserve
      · obtain ⟨res, hres, heq⟩ := map_eq_some_iff.mp hserve
        obtain ⟨rfl, rfl⟩ := Prod.mk.inj heq
        exact ⟨hinv.inbox q err hres, rfl⟩
      · obtain ⟨err', herr, heq⟩ := map_eq_some_iff.mp hserve
        obtain ⟨-, rfl⟩ := Prod.mk.inj heq
        obtain ⟨ctx, hctx, herr⟩ := bind_eq_some_iff.mp herr
        exact ⟨⟨ctx, hctx, by simp [Context.ended, herr]⟩, rfl⟩
    rw [hended.2]
    exact follows_ret (stable_returned _) fun _ => hended.1

theorem follows_aside (replica : Nat) :
    (protocol (V := V) key hjoins).Follows q (Returned q) (aside key replica) s := by
  unfold aside Valkey.get
  simp only [Prog.request_bind, Prog.ask_bind]
  refine follows_ask _ (Stable.const True) trivial (fun _ _ _ => trivial) ?_
  intro _ rep _ s₁ _ _ _ _
  match rep with
  | .error err => exact follows_share replica
  | .ok none => exact follows_share replica
  | .ok (some .tombstone) => exact follows_share replica
  | .ok (some .junk) => exact follows_share replica
  | .ok (some (.json v)) => exact follows_found v true

/-- The load fails only when its context is over. -/
theorem follows_flight (replica : Nat) (h : Runs q replica False s) :
    (protocol (V := V) key hjoins).Follows q (Returned q) ((Call.flight replica).run key) s := by
  have hfinish : ∀ (res : Except Err V) (s : State V), Runs q replica (∃ err, res = .error err) s →
      (protocol key hjoins).Follows q (Returned q)
        (.ask (.finish replica res) fun _ => .ret (default, false, none)) s := by
    intro res s hruns
    refine follows_ask _ (stable_runs replica _) hruns (fun _ _ h => h) ?_
    intro _ _ _ s₁ _ _ _ _
    exact follows_found default false
  simp only [Call.run, flight, Prog.request_bind, Prog.ask_bind]
  refine follows_ask _ (stable_runs replica False) h (fun _ _ _ => trivial) ?_
  intro x rep s₁ s₂ hinv hruns hserve _
  have hserve := (serve_of_asidesIf hserve).2
  cases x with
  | found v =>
    obtain ⟨ctx, -, hserve⟩ := bind_eq_some_iff.mp hserve
    split at hserve
    · cases hserve
    obtain ⟨rfl, rfl⟩ := Prod.mk.inj (some.inj hserve)
    refine follows_ask _ (stable_runs replica False) hruns (fun _ _ _ => trivial) ?_
    intro _ written s₃ s₄ _ hruns hserve _
    obtain rfl | ⟨_, _, hr, -⟩ | ⟨_, _, _, hr, -⟩ := serve_cases hserve
    · have hended := hfinish (.ok v) s₄ (hruns.mono (by simp))
      cases written with
      | error err => exact hended
      | ok written => exact hended
    · cases hr
    · cases hr
  | ended =>
    obtain ⟨ctx, hctx, hserve⟩ := bind_eq_some_iff.mp hserve
    obtain ⟨err, herr, heq⟩ := map_eq_some_iff.mp hserve
    obtain ⟨rfl, rfl⟩ := Prod.mk.inj heq
    obtain ⟨f, hf, hrunner, -⟩ := hruns
    obtain rfl : f.context = ctx :=
      some.inj ((hinv.runner replica f q hf hrunner).symm.trans hctx)
    exact hfinish _ _ ⟨f, hf, hrunner, fun _ => by simp [Context.ended, herr]⟩
  | _ => simp only [serve, reduceCtorEq] at hserve

/-- Every call that has returned an error has a context that is over by itself. -/
def Unharmed (c : Config Nat (Req V) (Rep V) (State V) Call (V × Bool × Option Err)) : Prop :=
  ∀ p replica deadline v hit err,
    c.proc p = some (.aside replica deadline, .ret (v, hit, some err)) → c.shared.ended p

theorem unharmed_of_joins (hjoins : ∀ d₁ d₂, joins d₁ d₂ → Shelters d₁ d₂)
    {c : Config Nat (Req V) (Rep V) (State V) Call (V × Bool × Option Err)}
    (hc : (asidesIf key joins).Reachable {} c) : Unharmed c := by
  have hinit : Inv ({} : State V) :=
    ⟨by simp, by simp, by simp, by simp⟩
  have hholds : (protocol key hjoins).Holds (fun q _ => Returned q) c := by
    refine Protocol.holds_of_reachable hinit (fun p call s s' _ haccept => ?_) hc
    cases call with
    | aside replica deadline => exact follows_aside replica
    | flight replica =>
      refine follows_flight replica ?_
      obtain ⟨f, hf, haccept⟩ := bind_eq_some_iff.mp haccept
      split at haccept
      · cases haccept
      · obtain rfl := some.inj haccept
        exact ⟨_, Function.update_self .., rfl, fun h => h.elim⟩
  intro p replica deadline v hit err hp
  exact hholds.returned hp (by simp)

/-- A client with deadline `x` starts the load, another one joins it, and the load still runs
at `x`. -/
def impatient (x : Nat) (d : Option Nat) : List (Event Nat (Choice V) Env Call) :=
  [.start 0 (.aside 0 (some x)), .step 0 (.lookup (.ok none)), .step 0 .ok,
    .start 1 (.aside 0 d), .step 1 (.lookup (.ok none)), .step 1 .ok,
    .start 2 (.flight 0), .env (.tick x), .step 2 .ended, .step 2 .ok, .step 1 .ok]

theorem impatient_run {x : Nat} {d : Option Nat} (hd : joins (some x) d) :
    ∃ c, (asidesIf (V := V) key joins).run ⟨{}, fun _ => none⟩ (impatient x d) = some c ∧
      c.proc 1 = some (.aside 0 d, .ret (default, false, some (.sentinel .deadlineExceeded))) ∧
      c.shared.contexts 1 = some ⟨d, false⟩ ∧ c.shared.clock = x := by
  simp [impatient, Machine.run, Machine.next, asidesIf, accept, env, serve, State.mayJoin,
    State.deadline, Call.run, aside, Valkey.get, share, flight, State.join, loadContext,
    Context.withoutCancel, Context.background, Context.withDeadline, Context.err, State.deliver, hd]

/-- Callers are safe from each other exactly when each one that joins a load has a deadline no
later than the one the load took over from its first caller, or that one had none. -/
theorem aside_isolated_iff (V : Type) [Inhabited V] (key : String)
    (joins : Option Nat → Option Nat → Bool) :
    (∀ c, (asidesIf (V := V) key joins).Reachable {} c → Unharmed c) ↔
      ∀ d₁ d₂, joins d₁ d₂ → Shelters d₁ d₂ := by
  refine ⟨fun h d₁ d₂ hd x hx => ?_, fun hjoins c hc => unharmed_of_joins hjoins hc⟩
  subst hx
  obtain ⟨c, hrun, hproc, hctx, hclock⟩ := @impatient_run V _ key joins x d₂ hd
  obtain ⟨ctx, hctx', hended⟩ := h c (Machine.Reachable.init.run hrun) 1 0 d₂ _ _ _ hproc
  obtain rfl : ctx = ⟨d₂, false⟩ := some.inj (hctx'.symm.trans hctx)
  obtain ⟨y, hy, hle⟩ := (Context.ended_iff.mp hended).resolve_left (by simp)
  exact ⟨y, hy, by omega⟩

/-- In milliseconds: the first client allows 100, the second one 15000, and the load takes
longer than 100. -/
theorem impatient_fails_another :
    ∃ c, (asidesIf (V := Nat) "tasks:1" fun _ _ => true).Reachable {} c ∧
      c.proc 1 = some (.aside 0 (some 15000),
        .ret (0, false, some (.sentinel .deadlineExceeded))) ∧
      ¬ c.shared.ended 1 := by
  obtain ⟨c, hrun, hproc, hctx, hclock⟩ :=
    @impatient_run Nat _ "tasks:1" (fun _ _ => true) 100 (some 15000) rfl
  refine ⟨c, Machine.Reachable.init.run hrun, hproc, ?_⟩
  rintro ⟨ctx, hctx', hended⟩
  obtain rfl : ctx = ⟨some 15000, false⟩ := some.inj (hctx'.symm.trans hctx)
  rw [hclock] at hended
  exact absurd hended (by decide)

end GolangBasics.Valkey.Deadlines
