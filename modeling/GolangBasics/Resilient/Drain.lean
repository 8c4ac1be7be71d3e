import GolangBasics.Resilient.Balance

/-! `Shutdown`: a call that returns nil returns when nothing is in flight, and nothing is
admitted afterwards. A call that waits is woken by the last one to leave, unless another
`Shutdown` takes the token that was meant for both. -/
namespace GolangBasics.Resilient
open Conc Threads

def Local.began : Local → Bool
  | .load | .wait _ | .drained | .undrained .. => true
  | _ => false

def Local.waits : Local → Nat
  | .wait _ => 1
  | _ => 0

def Account.remains (a : Account) : Nat := if a.phase = .admitted then 1 else 0

def Account.owes (a : Account) : Nat := if a.pending then 1 else 0

variable {cl : Client} {m m' : ClientState} {l l' : Local} {c : Pool ClientState Local} {i : Nat}

theorem remains_le_inside (l : Local) :
    l.weigh Account.remains ≤ l.weigh Account.inside := by
  cases l with
  | call account p =>
    cases account with
    | none => exact le_refl _
    | some a =>
      simp only [Local.weigh, Account.remains, Account.inside]
      by_cases h : a.phase = .admitted <;> simp [h]
  | send _ _ _ | close _ | shutdown | load | wait _ | drained | undrained _ _ => exact le_refl _

/-- Whoever waits has closed the client, and once a call has returned nil nobody remains. -/
structure Draining (c : Pool ClientState Local) : Prop where
  began : Pool.Each (fun _ m l => l.began → m.closing) c
  drained : ∀ i : Nat, c.threads[i]? = some .drained →
    c.total (Local.weigh Account.remains) = 0 ∧ c.shared.openBodies = 0

theorem Draining.quiet (hc : Draining c) (hi : c.threads[i]? = some l)
    (hclosing : c.shared.closing → m.closing) (hl' : l'.began → m.closing) (hnot : l' ≠ .drained)
    (hbodies : m.bodies = c.shared.bodies)
    (hzero : l.weigh Account.remains = 0 ∧ l'.weigh Account.remains = 0) :
    Draining ⟨m, c.threads.set i l'⟩ := by
  refine ⟨Pool.each_set hc.began hl' fun _ _ _ _ h hb => hclosing (h hb), fun j hj => ?_⟩
  have hset := Pool.total_set (s := m) (k := l') (f := Local.weigh Account.remains) hi
  rcases Pool.set_cases hj with ⟨-, hdrained⟩ | ⟨-, hj⟩
  · exact absurd hdrained.symm hnot
  · obtain ⟨hremains, hopen⟩ := hc.drained j hj
    refine ⟨by omega, ?_⟩
    simpa only [ClientState.openBodies, hbodies] using hopen

/-- Once the client is closing with nobody remaining, no operation brings anyone back. -/
theorem Draining.operate {a a' : Account} {p p' : Call Result} (hc : Draining c)
    (hi : c.threads[i]? = some (.call (some a) p)) (h : Moves cl c.shared a m a') :
    Draining ⟨m, c.threads.set i (.call (some a') p')⟩ := by
  have hkeep : Pool.Each (fun _ m l => l.began → m.closing)
      ⟨m, c.threads.set i (.call (some a') p')⟩ := by
    refine Pool.each_set hc.began (by simp [Local.began]) fun _ _ _ _ hb hbegan => ?_
    rw [h.closing]
    exact hb hbegan
  refine ⟨hkeep, fun j hj => ?_⟩
  rcases Pool.set_cases hj with ⟨-, hdrained⟩ | ⟨-, hj⟩
  · cases hdrained
  · obtain ⟨hremains, hopen⟩ := hc.drained j hj
    have hclosing := hc.began j _ hj rfl
    have hset := Pool.total_set (s := m) (k := .call (some a') p')
      (f := Local.weigh Account.remains) hi
    have hle := Pool.le_total (f := Local.weigh Account.remains) hi
    simp only [Local.weigh, Account.remains] at hset hle
    have hnot : a.phase ≠ .admitted := by
      intro hphase
      rw [if_pos hphase] at hle
      omega
    have hnot' : a'.phase ≠ .admitted := by
      intro hphase
      rcases h.admits hclosing hphase with hadmitted | hpos
      · exact hnot hadmitted
      · omega
    have hopens := h.opens
    rw [if_neg hnot] at hset hopens
    rw [if_neg hnot'] at hset
    exact ⟨by omega, by simp only; omega⟩

theorem draining_of_reachable {ok : Pool ClientState Local → Act Local Answer Empty → Prop}
    (hc : cl.calls.ReachableIf ok {} c) : Balanced cl c ∧ Draining c := by
  refine hc.invariant (I := fun c => Balanced cl c ∧ Draining c)
    ⟨balanced_init, by simp [Pool.Each], by simp⟩ ?_ ?_ ?_
  · rintro c l ⟨hbalanced, hc⟩ hl
    have hnew : l.began = false ∧ l.weigh Account.remains = 0 := by
      cases l <;> first | exact ⟨rfl, rfl⟩ | cases hl
    refine ⟨hbalanced.spawn hl, Pool.each_spawn hc.began (by simp [hnew.1]), fun j hj => ?_⟩
    rcases Pool.spawn_cases hj with ⟨-, rfl⟩ | hj
    · cases hl
    · rw [Pool.total_spawn, hnew.2]
      exact hc.drained j hj
  · rintro c i x l l' m ⟨hbalanced, hc⟩ _ hi hstep
    obtain ⟨hbalanced', hacts⟩ := hbalanced.step hi hstep
    refine ⟨hbalanced', ?_⟩
    cases hacts with
    | operate h => exact hc.operate hi h
    | send | close => exact hc.quiet hi id (by simp [Local.began]) (by simp) rfl ⟨rfl, rfl⟩
    | shutdown => exact hc.quiet hi (fun _ => rfl) (fun _ => rfl) (by simp) rfl ⟨rfl, rfl⟩
    | wait h | wake h | undrained =>
      have hclosing := hc.began i _ hi rfl
      exact hc.quiet hi id (fun _ => hclosing) (by simp) rfl ⟨rfl, rfl⟩
    | drained h =>
      have hclosing := hc.began i _ hi rfl
      refine ⟨Pool.each_set hc.began (fun _ => hclosing) fun _ _ _ _ h => h, fun j hj => ?_⟩
      have hcount := hbalanced'.count
      have hle := Pool.total_le (c := ⟨c.shared, c.threads.set i .drained⟩) remains_le_inside
      simp only [h] at hcount
      exact ⟨by omega, by simp only; omega⟩
  · intro c e
    exact e.elim

/-- The count is the callers between their increment and their decrement, those with an open
body among them, and never negative. At the step at which a `Shutdown` call returns nil nobody is
between the two, and in every state from there on nobody is admitted and no body is open. -/
theorem drain_safety (hc : cl.calls.Reachable {} c) :
    c.shared.inFlight = (c.total (Local.weigh Account.inside) + c.shared.openBodies : Nat) ∧
    0 ≤ c.shared.inFlight ∧
    (∀ i c', c.threads[i]? = some .load → cl.calls.next c (.step i .go) = some c' →
      c'.threads[i]? = some .drained →
      c'.total (Local.weigh Account.inside) = 0 ∧ c'.shared.openBodies = 0) ∧
    ∀ i : Nat, c.threads[i]? = some .drained → c.shared.closing ∧ c.shared.openBodies = 0 ∧
      ∀ (j : Nat) (a : Account) (p : Call Result),
        c.threads[j]? = some (.call (some a) p) → a.phase ≠ .admitted := by
  obtain ⟨hbalanced, hdraining⟩ := draining_of_reachable hc
  have hcount := hbalanced.count
  refine ⟨hcount, by omega, fun i c' hi hnext hi' => ?_, fun i hi => ?_⟩
  · have hzero : c.shared.inFlight = 0 ∧ c'.shared = c.shared := by
      simp only [next, hi, Client.calls, Client.step, Option.map_some, Option.some.injEq] at hnext
      subst hnext
      rw [Pool.set_self hi] at hi'
      refine ⟨?_, rfl⟩
      by_contra hne
      simp [hne] at hi'
    have hcount' := (balanced_of_reachable (hc.step hnext)).count
    rw [hzero.2, hzero.1] at hcount'
    rw [hzero.2]
    exact ⟨by omega, by omega⟩
  · obtain ⟨hremains, hopen⟩ := hdraining.drained i hi
    refine ⟨hdraining.began i _ hi rfl, hopen, fun j a p hj hphase => ?_⟩
    have hle := Pool.le_total (f := Local.weigh Account.remains) hj
    simp only [Local.weigh, Account.remains, if_pos hphase] at hle
    omega

/-- A call is admitted and cancelled, and then the client is shut down. -/
def oneCancelled : List (Act Local Answer Empty) :=
  [.spawn (.send "api" get false), .step 0 .go, .step 0 .go, .step 0 .go,
    .step 0 (.ctx (some .canceled)), .step 0 .go, .step 0 .go, .spawn .shutdown, .step 1 .go,
    .step 1 .go]

theorem drain_safety_oneCancelled :
    ∃ c, oneTarget.calls.run ⟨{}, []⟩ oneCancelled = some c ∧ c.threads[1]? = some .drained ∧
      c.shared.closing ∧ c.shared.openBodies = 0 := by
  obtain ⟨c, hrun, hdrained⟩ : ∃ c, oneTarget.calls.run ⟨{}, []⟩ oneCancelled = some c ∧
    c.threads[1]? = some .drained := ⟨_, rfl, rfl⟩
  have hc : oneTarget.calls.Reachable {} c := Reachable.run .init hrun
  obtain ⟨hclosing, hopen, -⟩ := (drain_safety hc).2.2.2 1 hdrained
  exact ⟨c, hrun, hdrained, hclosing, hopen⟩

/-- A `Shutdown` call that takes the token leaves no other one waiting, unless the count is
not zero or a call is about to send another token. -/
def takesAlone (c : Pool ClientState Local) : Act Local Answer Empty → Bool
  | .step i .go => c.threads[i]?.all fun l => l.waits = 0 || c.total Local.waits ≤ 1 ||
      c.shared.inFlight ≠ 0 || 0 < c.total (Local.weigh Account.owes)
  | _ => true

/-- Whoever waits is going to be woken: the count is not zero, the token is there, or a call
is about to send it. -/
def Woken (c : Pool ClientState Local) : Prop :=
  0 < c.total Local.waits → 0 < c.shared.inFlight ∨ c.shared.idle ∨
    0 < c.total (Local.weigh Account.owes)

theorem waits_of_total (h : 0 < c.total Local.waits) :
    ∃ (i : Nat) (n : Int), c.threads[i]? = some (.wait n) := by
  by_contra hnone
  have hzero : c.total Local.waits = 0 := by
    refine Pool.total_eq_zero fun i l hl => ?_
    cases l with
    | wait n => exact absurd ⟨i, n, hl⟩ hnone
    | send _ _ _ | close _ | call _ _ | shutdown | load | drained | undrained _ _ => rfl
  omega

theorem Woken.quiet (hc : Woken c) (hi : c.threads[i]? = some l)
    (hcount : m.inFlight = c.shared.inFlight) (hidle : m.idle = c.shared.idle)
    (hwaits : l'.waits ≤ l.waits)
    (hzero : l.weigh Account.owes = 0 ∧ l'.weigh Account.owes = 0) :
    Woken ⟨m, c.threads.set i l'⟩ := by
  intro hwait
  have hset := Pool.total_set (s := m) (k := l') (f := Local.waits) hi
  have howes := Pool.total_set (s := m) (k := l') (f := Local.weigh Account.owes) hi
  rcases hc (by omega) with hpos | htoken | howed
  · exact .inl (hcount ▸ hpos)
  · exact .inr (.inl (hidle ▸ htoken))
  · exact .inr (.inr (by omega))

/-- An operation either leaves a reason to be woken alone or puts another in its place. -/
theorem Woken.operate {a a' : Account} {p p' : Call Result} (hc : Woken c)
    (hdraining : Draining c) (hnonneg : 0 ≤ c.shared.inFlight)
    (hi : c.threads[i]? = some (.call (some a) p)) (h : Moves cl c.shared a m a') :
    Woken ⟨m, c.threads.set i (.call (some a') p')⟩ := by
  intro hwait
  have hset := Pool.total_set (s := m) (k := .call (some a') p') (f := Local.waits) hi
  have howes := Pool.total_set (s := m) (k := .call (some a') p')
    (f := Local.weigh Account.owes) hi
  simp only [Local.waits, Local.weigh, Account.owes] at hset howes
  have hwait : 0 < c.total Local.waits := by omega
  obtain ⟨j, n, hj⟩ := waits_of_total hwait
  have hclosing := hdraining.began j _ hj rfl
  have hwakes := h.wakes hclosing hnonneg
  have hdone : 0 < m.inFlight ∨ m.idle ∨ a'.pending →
      0 < m.inFlight ∨ m.idle ∨
        0 < (Pool.mk m (c.threads.set i (.call (some a') p'))).total (Local.weigh Account.owes) := by
    rintro (hpos | hidle | hpending)
    · exact .inl hpos
    · exact .inr (.inl hidle)
    · have hle := Pool.le_total (c := ⟨m, c.threads.set i (.call (some a') p')⟩)
        (f := Local.weigh Account.owes) (Pool.set_self hi)
      simp only [Local.weigh, Account.owes, if_pos hpending] at hle
      exact .inr (.inr (by omega))
  rcases hc hwait with hpos | hidle | howed
  · exact hdone (hwakes (.inl hpos))
  · exact hdone (hwakes (.inr (.inl hidle)))
  · by_cases hpending : a.pending
    · exact hdone (hwakes (.inr (.inr hpending)))
    · rw [if_neg hpending] at howes
      exact .inr (.inr (by omega))

theorem wake_go {x : Answer} {n : Int} (h : cl.step (.wait n) x m = some (.load, m')) :
    x = .go := by
  cases x with
  | go => rfl
  | ctx e => cases e <;> cases h
  | giveUp | ticket t | limit e | body b | response r | duration d | bytes b | jitter d
  | yes b => cases h

theorem woken_of_reachable (hc : cl.calls.ReachableIf (fun c a => takesAlone c a) {} c) :
    Woken c := by
  refine hc.induct (fun h => nomatch h) ?_ ?_ ?_
  · intro c l _ hwoken hl hwait
    have hnew : l.waits = 0 ∧ l.weigh Account.owes = 0 := by
      cases l <;> first | exact ⟨rfl, rfl⟩ | cases hl
    rw [Pool.total_spawn, hnew.1] at hwait
    rw [Pool.total_spawn, hnew.2]
    exact hwoken hwait
  · intro c i x l l' m hreach hwoken hok hi hstep
    obtain ⟨hbalanced, hdraining⟩ := draining_of_reachable hreach
    have hcount := hbalanced.count
    have hacts := (hbalanced.step hi hstep).2
    cases hacts with
    | operate h => exact hwoken.operate hdraining (by omega) hi h
    | send | close | shutdown | drained _ | undrained =>
      exact hwoken.quiet hi rfl rfl (by simp [Local.waits]) ⟨rfl, rfl⟩
    | wait hne => exact fun _ => .inl (by simp only; omega)
    | wake h =>
      obtain rfl := wake_go hstep
      intro hwait
      have hwaits := Pool.total_set (s := { c.shared with idle := false }) (k := Local.load)
        (f := Local.waits) hi
      have howes := Pool.total_set (s := { c.shared with idle := false }) (k := Local.load)
        (f := Local.weigh Account.owes) hi
      simp only [Local.waits, Local.weigh] at hwaits howes
      have halone : c.total Local.waits ≤ 1 ∨ c.shared.inFlight ≠ 0 ∨
          0 < c.total (Local.weigh Account.owes) := by
        simpa [takesAlone, hi, Local.waits, or_assoc] using hok
      rcases halone with hone | hcounted | howed
      · omega
      · exact .inl (by simp only; omega)
      · exact .inr (.inr (by omega))
  · intro c e
    exact e.elim

def NobodyInside (c : Pool ClientState Local) : Prop :=
  ∀ (j : Nat) (a : Account) (p : Call Result), c.threads[j]? = some (.call (some a) p) →
    a.phase ≠ .counted ∧ a.phase ≠ .refused ∧ a.phase ≠ .last ∧ a.phase ≠ .signalling

theorem owes_eq_zero (h : NobodyInside c) : c.total (Local.weigh Account.owes) = 0 := by
  refine Pool.total_eq_zero fun j l hj => ?_
  cases l with
  | call account p =>
    cases account with
    | none => rfl
    | some a =>
      obtain ⟨-, -, hlast, hsignalling⟩ := h j a p hj
      simp [Local.weigh, Account.owes, Account.pending, hlast, hsignalling]
  | send _ _ _ | close _ | shutdown | load | wait _ | drained | undrained _ _ => rfl

theorem nobodyInside (hinside : c.total (Local.weigh Account.inside) = 0)
    (howes : c.total (Local.weigh Account.owes) = 0) : NobodyInside c := by
  intro j a p hj
  have hin := Pool.le_total (f := Local.weigh Account.inside) hj
  have how := Pool.le_total (f := Local.weigh Account.owes) hj
  rw [hinside] at hin
  rw [howes] at how
  simp only [Local.weigh, Account.inside, Account.owes, Account.pending] at hin how
  refine ⟨fun h => ?_, fun h => ?_, fun h => ?_, fun h => ?_⟩
  all_goals simp [h] at hin how

/-- With the token there and the count at zero, a waiting call returns nil in two steps. -/
theorem wait_returns (hzero : c.shared.inFlight = 0) (htoken : c.shared.idle) {n : Int}
    (hi : c.threads[i]? = some (.wait n)) :
    ∃ c', cl.calls.run c [.step i .go, .step i .go] = some c' ∧ c'.threads[i]? = some .drained := by
  have htake : cl.calls.step i (.wait n) .go c.shared =
      some (.load, { c.shared with idle := false }) := by
    simp only [Client.calls, Client.step, htoken, if_true]
  have hload : cl.calls.step i .load .go { c.shared with idle := false } =
      some (.drained, { c.shared with idle := false }) := by
    simp only [Client.calls, Client.step, hzero, if_true]
  have hself : (c.threads.set i .load)[i]? = some .load := Pool.set_self hi
  have hnext := next_step (T := cl.calls)
    (c := ⟨{ c.shared with idle := false }, c.threads.set i .load⟩) hself hload
  exact ⟨_, run_cons (next_step hi htake) (run_cons hnext rfl), Pool.set_self hself⟩

/-- A call that does not take the token alone leaves another one stuck. -/
theorem takesAlone_necessary {c' : Pool ClientState Local} (hbalanced : Balanced cl c)
    (hdraining : Draining c) (hnot : takesAlone c (.step i .go) = false)
    (hnext : cl.calls.next c (.step i .go) = some c') :
    c'.shared.closing ∧ c'.shared.inFlight = 0 ∧ NobodyInside c' ∧
      ∃ (j : Nat) (n : Int), c'.threads[j]? = some (.wait n) ∧
        cl.calls.next c' (.step j .go) = none := by
  obtain ⟨l, hi, hl⟩ : ∃ l, c.threads[i]? = some l ∧ ¬(l.waits = 0 ∨ c.total Local.waits ≤ 1 ∨
      c.shared.inFlight ≠ 0 ∨ 0 < c.total (Local.weigh Account.owes)) := by
    cases hi : c.threads[i]? with
    | none => simp [takesAlone, hi] at hnot
    | some l => exact ⟨l, rfl, by simpa [takesAlone, hi, and_assoc] using hnot⟩
  simp only [not_or, not_le, not_lt, not_not] at hl
  obtain ⟨hwaits, hmany, hzero, howes⟩ := hl
  obtain ⟨n, rfl⟩ : ∃ n, l = .wait n := by
    cases l <;> first | exact ⟨_, rfl⟩ | exact absurd rfl hwaits
  have hclosing := hdraining.began i _ hi rfl
  obtain ⟨m, hm, rfl⟩ : ∃ m, m = { c.shared with idle := false } ∧
      c' = ⟨m, c.threads.set i .load⟩ := by
    simp only [next, hi, Client.calls, Client.step] at hnext
    split at hnext
    · exact ⟨_, rfl, (Option.some.inj hnext).symm⟩
    · cases hnext
  have hcount := hbalanced.count
  have hset : ∀ f : Local → Nat, (Pool.mk m (c.threads.set i .load)).total f + f (.wait n) =
      c.total f + f .load := fun f => Pool.total_set hi
  have hinside := hset (Local.weigh Account.inside)
  have howes' := hset (Local.weigh Account.owes)
  have hwaits' := hset Local.waits
  simp only [Local.weigh, Local.waits] at hinside howes' hwaits'
  obtain ⟨j, k, hj⟩ := waits_of_total (c := ⟨m, c.threads.set i .load⟩) (by omega)
  refine ⟨by rw [hm]; exact hclosing, by rw [hm]; exact hzero, nobodyInside (by omega) (by omega),
    j, k, hj, ?_⟩
  simp only [next, Client.calls, Client.step, hm] at hj ⊢
  simp [hj]

/-- Let every `Shutdown` call that takes the token do so alone. Then in every state of the run
in which the client is closing, the count is zero and nobody is inside `enter` or `leave`,
each waiting call can go on and return nil without its context ending. And the first call that
does not take it alone leaves another one waiting with no step but the end of its context. -/
theorem shutdown_wakes (hc : cl.calls.ReachableIf (fun c a => takesAlone c a) {} c) :
    (c.shared.closing → c.shared.inFlight = 0 → NobodyInside c →
      ∀ (i : Nat) (n : Int), c.threads[i]? = some (.wait n) →
        ∃ c', cl.calls.run c [.step i .go, .step i .go] = some c' ∧
          c'.threads[i]? = some .drained) ∧
    ∀ i c', takesAlone c (.step i .go) = false → cl.calls.next c (.step i .go) = some c' →
      c'.shared.closing ∧ c'.shared.inFlight = 0 ∧ NobodyInside c' ∧
        ∃ (j : Nat) (n : Int), c'.threads[j]? = some (.wait n) ∧
          cl.calls.next c' (.step j .go) = none := by
  obtain ⟨hbalanced, hdraining⟩ := draining_of_reachable hc
  refine ⟨fun _ hzero hnobody i n hi => ?_, fun i c' => takesAlone_necessary hbalanced hdraining⟩
  have howes := owes_eq_zero hnobody
  have hle := Pool.le_total (f := Local.waits) hi
  simp only [Local.waits] at hle
  rcases woken_of_reachable hc (by omega) with hpos | htoken | howed
  · omega
  · exact wait_returns hzero htoken hi
  · omega

def oneWaiter : List (Act Local Answer Empty) :=
  [.spawn (.send "api" get false), .step 0 .go, .step 0 .go, .step 0 .go,
    .spawn .shutdown, .step 1 .go, .step 1 .go,
    .step 0 (.ctx (some .canceled)), .step 0 .go, .step 0 .go, .step 0 .go]

def Local.phase : Local → Option Phase
  | .call account _ => account.map Account.phase
  | _ => none

theorem shutdown_wakes_oneWaiter :
    ∃ c c', oneTarget.calls.runIf takesAlone ⟨{}, []⟩ oneWaiter = some c ∧
      c.threads[1]? = some (.wait 1) ∧
      oneTarget.calls.run c [.step 1 .go, .step 1 .go] = some c' ∧
      c'.threads[1]? = some .drained := by
  obtain ⟨c, hrun, hwait, hclosing, hzero, hphases⟩ :
      ∃ c, oneTarget.calls.runIf takesAlone ⟨{}, []⟩ oneWaiter = some c ∧
        c.threads[1]? = some (.wait 1) ∧ c.shared.closing = true ∧ c.shared.inFlight = 0 ∧
        c.threads.map Local.phase = [some .gone, none] := ⟨_, rfl, rfl, rfl, rfl, rfl⟩
  have hc := ReachableIf.runIf (T := oneTarget.calls) .init hrun
  have hnobody : ∀ (j : Nat) (a : Account) (p : Call Result),
      c.threads[j]? = some (.call (some a) p) → a.phase = .gone := by
    intro j a p hj
    have hmem : some a.phase ∈ c.threads.map Local.phase :=
      List.mem_map.mpr ⟨_, List.mem_of_getElem? hj, rfl⟩
    rw [hphases] at hmem
    simpa using hmem
  obtain ⟨c', hrun', hdrained⟩ := (shutdown_wakes hc).1 hclosing hzero
    (fun j a p hj => by simp [hnobody j a p hj]) 1 1 hwait
  exact ⟨c, c', hrun, hwait, hrun', hdrained⟩

/-- Two `Shutdown` calls wait for one call to leave, and the first takes the token. -/
def twoWaiters : List (Act Local Answer Empty) :=
  [.spawn (.send "api" get false), .step 0 .go, .step 0 .go, .step 0 .go,
    .spawn .shutdown, .step 1 .go, .step 1 .go, .spawn .shutdown, .step 2 .go, .step 2 .go,
    .step 0 (.ctx (some .canceled)), .step 0 .go, .step 0 .go, .step 0 .go,
    .step 1 .go, .step 1 .go]

/-- The count is zero and nobody is inside `enter` or `leave`, and the second call waits on:
it has no step but the end of its context. -/
theorem twoWaiters_stuck :
    ∃ c, oneTarget.calls.run ⟨{}, []⟩ twoWaiters = some c ∧ c.shared.closing ∧
      c.shared.inFlight = 0 ∧ c.threads.map Local.phase = [some .gone, none, none] ∧
      c.threads[1]? = some .drained ∧ c.threads[2]? = some (.wait 1) ∧
      ∀ x c', oneTarget.calls.next c (.step 2 x) = some c' →
        ∃ e, x = .ctx (some e) ∧ c'.threads[2]? = some (.undrained 1 e) := by
  obtain ⟨c, hrun, hclosing, hzero, hidle, hphases, hdrained, hwait⟩ :
      ∃ c, oneTarget.calls.run ⟨{}, []⟩ twoWaiters = some c ∧ c.shared.closing = true ∧
        c.shared.inFlight = 0 ∧ c.shared.idle = false ∧
        c.threads.map Local.phase = [some .gone, none, none] ∧ c.threads[1]? = some .drained ∧
        c.threads[2]? = some (.wait 1) := ⟨_, rfl, rfl, rfl, rfl, rfl, rfl, rfl⟩
  refine ⟨c, hrun, hclosing, hzero, hphases, hdrained, hwait, fun x c' hnext => ?_⟩
  simp only [next, hwait, Client.calls] at hnext
  obtain ⟨⟨l', m⟩, hstep, rfl⟩ := Option.map_eq_some_iff.mp hnext
  cases x with
  | ctx e =>
    cases e with
    | none => cases hstep
    | some e =>
      cases hstep
      exact ⟨e, rfl, Pool.set_self hwait⟩
  | go => simp [Client.step, hidle] at hstep
  | giveUp | ticket t | limit e | body b | response r | duration d | bytes b | jitter d
  | yes b => cases hstep

end GolangBasics.Resilient
