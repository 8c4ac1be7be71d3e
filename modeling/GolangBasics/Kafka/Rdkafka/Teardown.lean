import GolangBasics.Kafka.Rdkafka.HandleSteps

/-! `Close` destroys the client only when no call is inside it, or not at all. -/
namespace GolangBasics.Kafka.Rdkafka.Handle
open Conc

variable {c c' : Pool Shared Pc} {m m' : Shared} {l l' : Pc} {i : Nat} {x : Choice}

/-- Once the wait for the calls has succeeded, none of them is left. -/
structure Inv (c : Pool Shared Pc) : Prop where
  calls : c.shared.calls = c.total Pc.counted + c.shared.commits
  loops : c.total Pc.looper ≤ c.shared.looping.toNat
  early : c.shared.waited = some true → c.total Pc.early + c.shared.commits = 0
  coherent : Coherent c.shared
  knows : c.Each fun _ m l => Knows m l

theorem inv_init : Inv ⟨newConsumer, []⟩ := by
  refine ⟨rfl, le_refl _, fun h => ?_, ?_, by simp [Pool.Each]⟩
  · cases h
  · constructor <;> simp [newConsumer]

theorem inv_spawn (hc : Inv c) (h : consumer.start l) : Inv ⟨c.shared, c.threads ++ [l]⟩ := by
  have hstart : l = .ping ∨ l = .loop ∨ l = .goroutine := by simpa [consumer] using h
  have hzero : l.counted = 0 ∧ l.looper = 0 ∧ l.early = 0 ∧ Knows c.shared l := by
    rcases hstart with rfl | rfl | rfl <;> exact ⟨rfl, rfl, rfl, trivial⟩
  obtain ⟨hcounted, hlooper, hearly, hknows⟩ := hzero
  refine ⟨?_, ?_, fun hwaited => ?_, hc.coherent, Pool.each_spawn hc.knows hknows⟩
  · rw [Pool.total_spawn, hcounted]
    exact hc.calls
  · rw [Pool.total_spawn, hlooper]
    exact hc.loops
  · rw [Pool.total_spawn, hearly]
    exact hc.early hwaited

theorem Inv.delta (hc : Inv c) (hl : c.threads[i]? = some l)
    (h : step i l x c.shared = some (l', m')) : Delta c.shared l l' m' := by
  have hcounted : l.counted ≤ c.total Pc.counted := Pool.le_total hl
  have hlooper : l.looper ≤ c.total Pc.looper := Pool.le_total hl
  have hcalls := hc.calls
  exact step_delta hc.coherent (by omega) (hlooper.trans hc.loops) (hc.knows i l hl) h

/-- What a thread knows survives a step that keeps the flags, the closing flag and the result
of the wait. -/
theorem knows_mono (hflags : l.looper = 1 → SameFlags m m') (hclosing : m.closing → m'.closing)
    (hwaited : ∀ b, m.waited = some b → m'.waited = some b) (h : Knows m l) : Knows m' l := by
  have hsite : ∀ w : Site, l.looper = 1 → w.Knows m → w.Knows m' := by
    intro w hl hw
    obtain ⟨h₁, h₂, h₃, h₄⟩ := hflags hl
    cases w <;> simp only [Site.Knows, h₁, h₂, h₃, h₄] at hw ⊢ <;> exact hw
  cases l with
  | idle | pollCheck | closeCheck => exact hsite .loop rfl h
  | polling | inPoll => exact hsite .poll rfl h
  | inClose => exact hsite .close rfl h
  | lost w | revoked w => exact ⟨h.1, hsite w rfl h.2⟩
  | commitCheck w => exact hsite w rfl h
  | commitSync w | commitSyncInside w | commitSyncDone w => exact ⟨h.1, hsite w rfl h.2⟩
  | commitSpawn w | commitWait w => exact ⟨h.1, hsite w rfl h.2⟩
  | closeSpawn | closeWait =>
    have hf := hflags rfl
    exact ⟨hclosing h.1, hf.closed.trans h.2.1, hf.ending.trans h.2.2⟩
  | closeGiveUp => exact hwaited false h
  | closeBegin =>
    have hf := hflags rfl
    exact ⟨hclosing h.1, hf.closed.trans h.2.1, hf.ending.trans h.2.2.1, hwaited true h.2.2.2⟩
  | closeMark => exact hclosing h
  | closeRest => exact (hflags rfl).closed.trans h
  | waiter => exact hclosing h
  | _ => trivial

/-- The loop is one goroutine, so nobody else sets its flags. -/
theorem Inv.flags (hc : Inv c) (hl : c.threads[i]? = some l) (hd : Delta c.shared l l' m') {j : Nat}
    {k : Pc} (hj : j ≠ i) (hk : c.threads[j]? = some k) (hloop : k.looper = 1) :
    SameFlags c.shared m' := by
  refine hd.flags ?_
  have hle : l.looper + k.looper ≤ c.total Pc.looper := Pool.add_le_total hl hk hj
  have hone := hc.loops
  have hbool := Bool.toNat_le c.shared.looping
  omega

theorem Pc.early_le (l : Pc) : l.early ≤ l.counted := by
  cases l <;> simp [early, counted]

theorem inv_step (hc : Inv c) (hl : c.threads[i]? = some l)
    (h : step i l x c.shared = some (l', m')) : Inv ⟨m', c.threads.set i l'⟩ := by
  have hd := hc.delta hl h
  refine ⟨?_, ?_, fun hwaited => ?_, hd.coherent, Pool.each_set hc.knows hd.knows
    fun j k hj hk hknows => knows_mono (hc.flags hl hd hj hk) hd.closing hd.waited hknows⟩
  · have htotal := Pool.total_set (s := m') (k := l') (f := Pc.counted) hl
    have hcalls := hc.calls
    have hdelta := hd.calls
    show m'.calls = _ + m'.commits
    omega
  · have htotal := Pool.total_set (s := m') (k := l') (f := Pc.looper) hl
    have hloops := hc.loops
    have hdelta := hd.loops
    show _ ≤ m'.looping.toNat
    omega
  · have htotal := Pool.total_set (s := m') (k := l') (f := Pc.early) hl
    show _ + m'.commits = 0
    rcases hd.drained hwaited with hold | ⟨hzero, hnone, hcommits⟩
    · have hearly := hc.early hold
      have hdelta := hd.early (hc.coherent.waited (by simp [hold]))
      omega
    · have hle : c.total Pc.early ≤ c.total Pc.counted := Pool.total_le Pc.early_le
      have hcalls := hc.calls
      omega

theorem inv_env {e : Env} (hc : Inv c) (h : env e c.shared = some m') : Inv ⟨m', c.threads⟩ := by
  simp only [env] at h
  split_ifs at h with hwaiting
  cases h
  obtain ⟨hclosing, hnone⟩ := hwaiting
  have hsticky : ∀ b, c.shared.waited = some b → some false = some b := by
    intro b hb
    simp [hnone] at hb
  refine ⟨hc.calls, hc.loops, fun hwaited => ?_, ?_, fun j k hk => ?_⟩
  · simp at hwaited
  · have hold := hc.coherent
    exact ⟨fun hending => hsticky true (hold.ending hending), hold.destroyed,
      fun _ => hclosing, hold.waiter, hold.closed, hold.looping⟩
  · exact knows_mono (m := c.shared) (fun _ => ⟨rfl, rfl, rfl, rfl⟩) id hsticky (hc.knows j k hk)

theorem inv_of_reachable (hc : consumer.Reachable newConsumer c) : Inv c :=
  hc.invariant inv_init (fun _ _ => inv_spawn) (fun _ _ _ _ _ _ hinv _ => inv_step hinv)
    fun _ e _ hinv _ => inv_env (e := e) hinv

/-- Once the client's close has begun, only its own rebalance callback is inside it. -/
theorem Inv.inside_ending (hc : Inv c) (hl : c.threads[i]? = some l) (hending : c.shared.ending)
    (hin : l.inside) : (l = .lost .close ∨ l = .commitSyncInside .close) ∧
      c.shared.destroyed = false := by
  have hclosing : c.shared.closing = true :=
    hc.coherent.waited (by simp [hc.coherent.ending hending])
  have hnone : l.early = 0 := by
    have hle : l.early ≤ c.total Pc.early := Pool.le_total hl
    have hzero := hc.early (hc.coherent.ending hending)
    omega
  have hknows := hc.knows i l hl
  cases l with
  | pingInside | commitGoInside => cases hnone
  | inPoll => simp_all [Knows, Site.Knows]
  | lost w =>
    cases w with
    | loop => exact absurd rfl hknows.1
    | poll => simp_all [Knows, Site.Knows]
    | close => exact ⟨.inl rfl, hknows.2.2.2.2⟩
  | commitSyncInside w =>
    obtain ⟨rfl, hsite⟩ := hknows
    exact ⟨.inr rfl, hsite.2.2.2⟩
  | _ => cases hin

theorem waited_run {b : Bool} {as : List (Act Pc Choice Env)}
    (hc : consumer.Reachable newConsumer c) (hb : c.shared.waited = some b)
    (h : consumer.run c as = some c') : c'.shared.waited = some b := by
  induction as generalizing c with
  | nil =>
    obtain rfl := Option.some.inj h
    exact hb
  | cons a as ih =>
    obtain ⟨c₁, hnext, hrest⟩ := Option.bind_eq_some_iff.mp h
    refine ih (hc.step hnext) ?_ hrest
    rcases Threads.next_cases hnext with ⟨k, -, -, rfl⟩ | ⟨i, x, k, k', m', -, hk, hstep, rfl⟩ |
      ⟨e, m', -, henv, rfl⟩
    · exact hb
    · exact ((inv_of_reachable hc).delta hk hstep).waited b hb
    · simp [consumer, env, hb] at henv


/-- In every interleaving: the client is never destroyed with a call inside it; while a `Ping`
or a commit from before `Close` is inside it its close has not begun, and when `closeWait` ends
first it never begins; no new `Ping` goes in once `Close` has begun; and only the rebalance
callback, with its question whether the partitions were lost and its commit, calls into a
client that is being closed, and it is done before the client is gone. -/
theorem consumer_teardown (hc : consumer.Reachable newConsumer c) :
    (c.shared.destroyed → ∀ (i : Nat) (l : Pc), c.threads[i]? = some l → l.inside = false) ∧
    (∀ (i : Nat) (l : Pc), c.threads[i]? = some l → l.early = 1 →
      c.shared.ending = false ∧ c.shared.waited ≠ some true) ∧
    (∀ c', consumer.next c (.env .timer) = some c' → ∀ as c'', consumer.run c' as = some c'' →
      c''.shared.ending = false ∧ c''.shared.destroyed = false) ∧
    (c.shared.closing → ∀ a c', consumer.next c a = some c' → ∀ (i : Nat) (l' : Pc),
      c'.threads[i]? = some l' → l'.pinging → ∃ l, c.threads[i]? = some l ∧ l.pinging) ∧
    (c.shared.ending → ∀ (i : Nat) (l : Pc), c.threads[i]? = some l → l.inside →
      (l = .lost .close ∨ l = .commitSyncInside .close) ∧ c.shared.destroyed = false) := by
  have hinv := inv_of_reachable hc
  refine ⟨fun hdestroyed i l hl => ?_, fun i l hl hearly => ?_, fun c' hnext as c'' hrun => ?_,
    fun hclosing a c' hnext i l' hl' hping => ?_,
    fun hending i l hl => hinv.inside_ending hl hending⟩
  · by_contra hin
    have hlate := hinv.inside_ending hl (hinv.coherent.destroyed hdestroyed) (by simpa using hin)
    simp [hdestroyed] at hlate
  · have hwaited : c.shared.waited ≠ some true := by
      intro hwaited
      have hle : l.early ≤ c.total Pc.early := Pool.le_total hl
      have hzero := hinv.early hwaited
      omega
    refine ⟨?_, hwaited⟩
    by_contra hending
    exact hwaited (hinv.coherent.ending (by simpa using hending))
  · have hreach := hc.step hnext
    have hfalse : c'.shared.waited = some false := by
      obtain ⟨m', henv, rfl⟩ := Option.map_eq_some_iff.mp hnext
      simp only [consumer, env] at henv
      split_ifs at henv
      cases henv
      rfl
    have hfinal := waited_run hreach hfalse hrun
    have hcoherent := (inv_of_reachable (hreach.run hrun)).coherent
    have hending : c''.shared.ending = false := by
      by_contra hending
      have := hcoherent.ending (by simpa using hending)
      simp [hfinal] at this
    refine ⟨hending, ?_⟩
    by_contra hdestroyed
    have := hcoherent.destroyed (by simpa using hdestroyed)
    simp [hending] at this
  · rcases Threads.next_cases hnext with ⟨k, -, hstart, rfl⟩ |
      ⟨j, x, k, k', m', -, hk, hstep, rfl⟩ | ⟨e, m', -, -, rfl⟩
    · rcases Pool.spawn_cases hl' with ⟨-, rfl⟩ | hl'
      · simp only [consumer, decide_eq_true_eq] at hstart
        rcases hstart with rfl | rfl | rfl <;> cases hping
      · exact ⟨l', hl', hping⟩
    · rcases Pool.set_cases hl' with ⟨rfl, rfl⟩ | ⟨-, hl'⟩
      · exact ⟨k, hk, (hinv.delta hk hstep).pings hclosing hping⟩
      · exact ⟨l', hl', hping⟩
    · exact ⟨l', hl', hping⟩

/-- A `Ping` is inside the client when `Close` begins, and `closeWait` ends first. -/
def pingOutlasts : List (Act Pc Choice Env) :=
  [.spawn .ping, .step 0 .go, .step 0 .go, .step 0 .go, .spawn .loop, .step 1 .go, .step 1 .close,
    .step 1 .go, .step 1 .go, .env .timer, .step 1 .go, .step 1 .go]

theorem consumer_teardown_pingOutlasts :
    ∃ c, consumer.run ⟨newConsumer, []⟩ pingOutlasts = some c ∧
      c.threads[0]? = some .pingInside ∧ c.shared.closed ∧ c.shared.ending = false := by
  obtain ⟨c, hrun, hping, hclosed⟩ : ∃ c, consumer.run ⟨newConsumer, []⟩ pingOutlasts = some c ∧
    c.threads[0]? = some .pingInside ∧ c.shared.closed := ⟨_, rfl, rfl, rfl⟩
  have hteardown := consumer_teardown (Threads.Reachable.run .init hrun)
  exact ⟨c, hrun, hping, hclosed, (hteardown.2.1 0 _ hping rfl).1⟩

/-- `Close` finds no call inside, and the client's close revokes the partitions. -/
def revokedByClose : List (Act Pc Choice Env) :=
  [.spawn .loop, .step 0 .go, .step 0 .close, .step 0 .go, .step 0 .go, .spawn .goroutine,
    .step 1 (.pick 0), .step 1 .go, .step 0 .go, .step 0 .go, .step 0 .revoke]

/-- The commit is not the only call into a client that is being closed: the callback first asks
the client whether the partitions were lost. -/
theorem assignmentLost_during_close :
    ∃ c, consumer.run ⟨newConsumer, []⟩ revokedByClose = some c ∧ c.shared.ending ∧
      c.shared.destroyed = false ∧ c.threads[0]? = some (.lost .close) ∧
      (Pc.lost .close).inside ∧ Pc.lost .close ≠ .commitSyncInside .close := by
  exact ⟨_, rfl, rfl, rfl, rfl, rfl, by decide⟩

end GolangBasics.Kafka.Rdkafka.Handle
