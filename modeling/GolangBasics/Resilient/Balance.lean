import GolangBasics.Resilient.Operations

/-! The shared counters of a client are what its calls and its open bodies hold, in every
interleaving. -/
namespace GolangBasics.Resilient
open Conc Threads Option

def Local.weigh (f : Account → Nat) : Local → Nat
  | .call (some a) _ => f a
  | _ => 0

def Local.InOrder : Local → Prop
  | .call account p => ∃ a, account = some a ∧ Keeps Result.Settles p a
  | _ => True

inductive Acts (cl : Client) (m : ClientState) : Local → Local → ClientState → Prop where
  | operate {a a' : Account} {p p' : Call Result} {m' : ClientState} (h : Moves cl m a m' a') :
      Acts cl m (.call (some a) p) (.call (some a') p') m'
  | send {target : String} {req : Request} {retry : Bool} {p : Call Result} :
      Acts cl m (.send target req retry) (.call (some {}) p) m
  | close {body : Nat} {p : Call Result} : Acts cl m (.close body) (.call (some {}) p) m
  | shutdown : Acts cl m .shutdown .load { m with closing := true }
  | drained (h : m.inFlight = 0) : Acts cl m .load .drained m
  | wait (h : m.inFlight ≠ 0) : Acts cl m .load (.wait m.inFlight) m
  | wake {n : Int} (h : m.idle) : Acts cl m (.wait n) .load { m with idle := false }
  | undrained {n : Int} {e : CtxErr} : Acts cl m (.wait n) (.undrained n e) m

variable {cl : Client} {m m' : ClientState} {l l' : Local} {c : Pool ClientState Local} {i : Nat}

/-- The step lemma: what a thread does, and that its account stays in order. -/
theorem step_acts {x : Answer} (hl : l.InOrder)
    (hrun : ∀ id, l.weigh (Account.runs id) = 1 → m.running id = 1)
    (h : cl.step l x m = some (l', m')) : Acts cl m l l' m' ∧ l'.InOrder := by
  cases l with
  | send target req retry =>
    cases x <;> cases h
    exact ⟨.send, _, rfl, (send_keeps cl target req retry).bind fun r a hr => keeps_pure hr⟩
  | close body =>
    cases x <;> cases h
    exact ⟨.close, _, rfl, (close_keeps body).bind fun r a hr => keeps_pure hr⟩
  | call account p =>
    obtain ⟨a, rfl, hkeeps⟩ := hl
    cases p with
    | ret r => cases x <;> cases h
    | ask op k =>
      obtain ⟨⟨reply, m₁⟩, hanswer, hset⟩ := map_eq_some_iff.mp h
      obtain ⟨a', hafter, hk⟩ := hkeeps reply
      cases hset
      simp only [bind_some, hafter]
      refine ⟨.operate (op_moves (fun id hid => hrun id ?_) hanswer hafter), a', rfl, hk⟩
      simp [Local.weigh, Account.runs, hid]
  | shutdown =>
    cases x <;> cases h
    exact ⟨.shutdown, trivial⟩
  | load =>
    cases x <;> simp only [Client.step, reduceCtorEq] at h
    split at h
    · cases h
      exact ⟨.drained ‹_›, trivial⟩
    · cases h
      exact ⟨.wait ‹_›, trivial⟩
  | wait n =>
    cases x with
    | go =>
      simp only [Client.step] at h
      split at h
      · cases h
        exact ⟨.wake ‹_›, trivial⟩
      · cases h
    | ctx e =>
      cases e <;> cases h
      exact ⟨.undrained, trivial⟩
    | giveUp | ticket t | limit e | body b | response r | duration d | bytes b | jitter d
    | yes b => cases h
  | drained | undrained n e => cases x <;> cases h

/-- The counters are what calls and open bodies hold, every body was returned by one call,
and the release of a body runs in one call at most. -/
structure Balanced (cl : Client) (c : Pool ClientState Local) : Prop where
  calls : Pool.Each (fun _ _ => Local.InOrder) c
  count : c.shared.inFlight =
    (c.total (Local.weigh Account.inside) + c.shared.openBodies : Nat)
  slots : ∀ t, c.shared.slots t =
    c.total (Local.weigh (Account.has t)) + c.shared.heldBy t
  room : ∀ t, c.shared.slots t ≤ cl.capacity t
  given : ∀ id, c.total (Local.weigh (Account.gave id)) = c.shared.given id
  running : ∀ id, c.total (Local.weigh (Account.runs id)) = c.shared.running id

theorem Balanced.quiet (hc : Balanced cl c) (hi : c.threads[i]? = some l) (hl' : l'.InOrder)
    (hcount : m.inFlight = c.shared.inFlight) (hslots : m.slots = c.shared.slots)
    (hbodies : m.bodies = c.shared.bodies)
    (hzero : ∀ f : Account → Nat, f {} = 0 → l.weigh f = 0 ∧ l'.weigh f = 0) :
    Balanced cl ⟨m, c.threads.set i l'⟩ := by
  have hsame : ∀ f : Account → Nat, f {} = 0 →
      (Pool.mk m (c.threads.set i l')).total (Local.weigh f) = c.total (Local.weigh f) := by
    intro f hf
    have hset := Pool.total_set (s := m) (k := l') (f := Local.weigh f) hi
    obtain ⟨hold, hnew⟩ := hzero f hf
    omega
  refine ⟨Pool.each_set hc.calls hl' fun _ _ _ _ h => h, ?_, ?_, ?_, ?_, ?_⟩
  · rw [hsame _ rfl]
    simp only [ClientState.openBodies, hcount, hbodies]
    exact hc.count
  · intro t
    rw [hsame _ rfl]
    simp only [ClientState.heldBy, hslots, hbodies]
    exact hc.slots t
  · simp only [hslots]
    exact hc.room
  · intro id
    rw [hsame _ rfl]
    simp only [ClientState.given, hbodies]
    exact hc.given id
  · intro id
    rw [hsame _ rfl]
    simp only [ClientState.running, hbodies]
    exact hc.running id

theorem Balanced.operate {a a' : Account} {p p' : Call Result} (hc : Balanced cl c)
    (hi : c.threads[i]? = some (.call (some a) p)) (hl' : Local.InOrder (.call (some a') p'))
    (h : Moves cl c.shared a m a') : Balanced cl ⟨m, c.threads.set i (.call (some a') p')⟩ := by
  have hset : ∀ f : Account → Nat,
      (Pool.mk m (c.threads.set i (.call (some a') p'))).total (Local.weigh f) + f a =
        c.total (Local.weigh f) + f a' :=
    fun f => Pool.total_set (f := Local.weigh f) hi
  refine ⟨Pool.each_set hc.calls hl' fun _ _ _ _ h => h, ?_, ?_, ?_, ?_, ?_⟩
  · have htotal := hset Account.inside
    have hmove := h.count
    have hcount := hc.count
    simp only
    omega
  · intro t
    have htotal := hset (Account.has t)
    have hmove := h.slots t
    have hslots := hc.slots t
    simp only
    omega
  · intro t
    rcases h.room t with hless | hroom
    · exact le_trans hless (hc.room t)
    · exact hroom
  · intro id
    have htotal := hset (Account.gave id)
    have hmove := h.given id
    have hgiven := hc.given id
    simp only
    omega
  · intro id
    have htotal := hset (Account.runs id)
    have hmove := h.running id
    have hrunning := hc.running id
    simp only
    omega

theorem Balanced.running_of_runs (hc : Balanced cl c) (hi : c.threads[i]? = some l) {id : Nat}
    (h : l.weigh (Account.runs id) = 1) : c.shared.running id = 1 := by
  have hle := Pool.le_total (f := Local.weigh (Account.runs id)) hi
  have hrunning := hc.running id
  have hone : c.shared.running id ≤ 1 := by
    unfold ClientState.running
    split <;> omega
  omega

theorem Balanced.step {x : Answer} (hc : Balanced cl c) (hi : c.threads[i]? = some l)
    (h : cl.step l x c.shared = some (l', m')) :
    Balanced cl ⟨m', c.threads.set i l'⟩ ∧ Acts cl c.shared l l' m' := by
  obtain ⟨hacts, hl'⟩ := step_acts (hc.calls i l hi) (fun id => hc.running_of_runs hi) h
  refine ⟨?_, hacts⟩
  cases hacts with
  | operate hmoves => exact hc.operate hi hl' hmoves
  | send | close => exact hc.quiet hi hl' rfl rfl rfl fun f hf => ⟨rfl, hf⟩
  | shutdown | drained _ | wait _ | wake _ | undrained =>
    exact hc.quiet hi hl' rfl rfl rfl fun f hf => ⟨rfl, rfl⟩

theorem balanced_init : Balanced cl ⟨{}, []⟩ :=
  ⟨by simp [Pool.Each], rfl, fun _ => rfl, fun _ => Nat.zero_le _, fun _ => rfl, fun _ => rfl⟩

theorem Balanced.spawn (hc : Balanced cl c) (hl : l.starts) :
    Balanced cl ⟨c.shared, c.threads ++ [l]⟩ := by
  have hnone : l.InOrder ∧ ∀ f, l.weigh f = 0 := by
    cases l <;> first | exact ⟨trivial, fun f => rfl⟩ | cases hl
  have hsame : ∀ f : Account → Nat,
      (Pool.mk c.shared (c.threads ++ [l])).total (Local.weigh f) = c.total (Local.weigh f) :=
    fun f => Pool.total_spawn.trans (by rw [hnone.2, Nat.add_zero])
  refine ⟨Pool.each_spawn hc.calls hnone.1, ?_, ?_, hc.room, ?_, ?_⟩
  · rw [hsame]
    exact hc.count
  · intro t
    rw [hsame]
    exact hc.slots t
  · intro id
    rw [hsame]
    exact hc.given id
  · intro id
    rw [hsame]
    exact hc.running id

theorem balanced_of_reachable {ok : Pool ClientState Local → Act Local Answer Empty → Prop}
    (hc : cl.calls.ReachableIf ok {} c) : Balanced cl c := by
  refine hc.invariant balanced_init ?_ ?_ ?_
  · intro c l h hl
    exact h.spawn hl
  · intro c i x l l' m h _ hi hstep
    exact (h.step hi hstep).1
  · intro c e
    exact e.elim

/-- A slot that is given back is there to be taken off the channel. -/
theorem freeSlot_possible (hc : Balanced cl c) {account : Option Account} {target : String}
    {k : Unit → Call Result}
    (hi : c.threads[i]? = some (.call account (.ask (.freeSlot target) k))) :
    0 < c.shared.slots target := by
  obtain ⟨a, rfl, hkeeps⟩ := hc.calls i _ hi
  obtain ⟨a', hafter, -⟩ := hkeeps ()
  have hslot : a.slot = some target := by
    simp only [Account.after] at hafter
    split at hafter
    · assumption
    · cases hafter
  have hle := Pool.le_total (f := Local.weigh (Account.has target)) hi
  have hslots := hc.slots target
  simp only [Local.weigh, Account.has, hslot, if_true] at hle
  omega

theorem close_again {account : Option Account} {id : Nat} {k : Option Policy → Call Result}
    {b : Body} {x : Answer} {c' : Pool ClientState Local}
    (hi : c.threads[i]? = some (.call account (.ask (.onceDo id) k)))
    (hb : c.shared.bodies[id]? = some b) (honce : b.once ≠ .ready)
    (h : cl.calls.next c (.step i x) = some c') :
    c'.shared = c.shared ∧ ∃ account', c'.threads[i]? = some (.call account' (k none)) := by
  simp only [next, hi, Client.calls, Client.step, map_map] at h
  obtain ⟨⟨reply, m⟩, hanswer, rfl⟩ := map_eq_some_iff.mp h
  obtain ⟨p, once⟩ := b
  cases x <;> simp only [Client.answer, reduceCtorEq, hb] at hanswer
  cases once with
  | ready => exact absurd rfl honce
  | running => cases hanswer
  | done =>
    cases hanswer
    exact ⟨rfl, _, Pool.set_self hi⟩

def ClientState.released (m : ClientState) (id : Nat) : Prop :=
  m.bodies[id]?.map Body.once = some .done

def Local.Releases (m : ClientState) : Local → Prop
  | .call _ p => ∃ known, (∀ id, known = some id → m.released id) ∧ Resilient.Releases p known
  | _ => True

theorem released_setOnce {id j : Nat} {b : Body} {once : Once} (hb : m.bodies[id]? = some b)
    (h : m.released j) (hid : j = id → once = .done ∨ b.once ≠ .done) :
    (m.setOnce id b once).released j := by
  unfold ClientState.released at *
  by_cases hj : j = id
  · subst hj
    have hlt := (List.getElem?_eq_some_iff.mp hb).1
    have hdone : b.once = .done := by simpa [hb] using h
    have honce := (hid rfl).resolve_right (not_not.mpr hdone)
    simp [ClientState.setOnce, hlt, honce]
  · simpa [ClientState.setOnce, List.getElem?_set_ne (Ne.symm hj)] using h

/-- A body stays released, and a call that learns of a release is right. -/
theorem answer_released {op : Op} {x : Answer} {reply : op.Rep} (known : Option Nat)
    (h : cl.answer m op x = some (reply, m')) : (∀ id, m.released id → m'.released id) ∧
      ∀ id, op.released reply known = some id → known = some id ∨ m'.released id := by
  have hsame : m'.bodies = m.bodies → ∀ id, m.released id → m'.released id := by
    intro hbodies id hid
    rwa [ClientState.released, hbodies]
  cases op with
  | onceDo body =>
    cases x <;> simp only [Client.answer, reduceCtorEq] at h
    split at h <;> cases h
    · rename_i hb
      exact ⟨fun id hid => released_setOnce hb hid fun _ => .inr (by simp), fun id => .inl⟩
    · rename_i p hb
      refine ⟨hsame rfl, fun id hid => .inr ?_⟩
      cases hid
      simp [ClientState.released, hb]
  | onceDone body =>
    cases x <;> simp only [Client.answer, reduceCtorEq] at h
    obtain ⟨b, hb, hset⟩ := map_eq_some_iff.mp h
    cases hset
    refine ⟨fun id hid => released_setOnce hb hid fun _ => .inl rfl, fun id hid => .inr ?_⟩
    cases hid
    have hlt := (List.getElem?_eq_some_iff.mp hb).1
    simp [ClientState.released, ClientState.setOnce, hlt]
  | newBody p =>
    cases x <;> cases h
    refine ⟨fun id hid => ?_, fun id => .inl⟩
    obtain ⟨b, hb, -⟩ := map_eq_some_iff.mp hid
    have hlt := (List.getElem?_eq_some_iff.mp hb).1
    simpa [ClientState.released, List.getElem?_append_left hlt] using hid
  | trySlot target | freeSlot target =>
    cases x <;> simp only [Client.answer, reduceCtorEq] at h
    split at h <;> cases h <;> exact ⟨hsame rfl, fun id => .inl⟩
  | awaitSlot target =>
    cases x <;> simp only [Client.answer, reduceCtorEq] at h
    · split at h <;> cases h
      exact ⟨hsame rfl, fun id => .inl⟩
    · cases h
      exact ⟨hsame rfl, fun id => .inl⟩
  | _ =>
    cases x <;> cases h
    exact ⟨hsame rfl, fun id => .inl⟩

theorem step_releases {x : Answer} (hl : l.Releases m) (h : cl.step l x m = some (l', m')) :
    (∀ id, m.released id → m'.released id) ∧ l'.Releases m' := by
  cases l with
  | send target req retry =>
    cases x <;> cases h
    exact ⟨fun _ => id, none, nofun, send_releases _⟩
  | close body =>
    cases x <;> cases h
    exact ⟨fun _ => id, none, nofun, close_releases body⟩
  | call account p =>
    obtain ⟨known, hknown, hp⟩ := hl
    cases p with
    | ret r => cases x <;> cases h
    | ask op k =>
      obtain ⟨⟨reply, m₁⟩, hanswer, hset⟩ := map_eq_some_iff.mp h
      obtain ⟨_, hmove, hk⟩ := hp reply
      cases hmove
      obtain ⟨hkeep, hlearn⟩ := answer_released known hanswer
      cases hset
      refine ⟨hkeep, _, fun id hid => ?_, hk⟩
      exact (hlearn id hid).elim (fun hold => hkeep id (hknown id hold)) fun hnew => hnew
  | shutdown =>
    cases x <;> cases h
    exact ⟨fun _ => id, trivial⟩
  | load =>
    cases x <;> cases h
    refine ⟨fun _ => id, ?_⟩
    split <;> trivial
  | wait n =>
    cases x <;> simp only [Client.step, reduceCtorEq] at h
    · split at h <;> cases h
      exact ⟨fun _ => id, trivial⟩
    · rename_i e
      cases e <;> cases h
      exact ⟨fun _ => id, trivial⟩
  | drained | undrained n e => cases x <;> cases h

theorem releases_of_reachable (hc : cl.calls.Reachable {} c) :
    Pool.Each (fun _ m l => l.Releases m) c := by
  refine ReachableIf.invariant hc (by simp [Pool.Each]) ?_ ?_ fun c e => e.elim
  · intro c l h hl
    refine Pool.each_spawn h ?_
    cases l <;> trivial
  · intro c i x l l' m h _ hi hstep
    obtain ⟨hkeep, hl'⟩ := step_releases (h i l hi) hstep
    refine Pool.each_set h hl' fun j k _ _ hk => ?_
    cases k with
    | call account p =>
      obtain ⟨known, hknown, hp⟩ := hk
      exact ⟨known, fun id hid => hkeep id (hknown id hid), hp⟩
    | _ => trivial

/-- In every interleaving a call takes nothing that it holds already and gives back nothing
that it does not hold, and it returns with all given back: with an error at once, with a
response at the first `Close` of the body. Giving back never blocks, every body was returned
by one call and is released by one `Close`, another `Close` changes nothing, and every `Close`
that has returned leaves its body released. So the count is the calls and bodies inside, and the
slots in use are those held by attempts, at most `MaxConcurrent`. -/
theorem resource_balance (hc : cl.calls.Reachable {} c) :
    (∀ (i : Nat) (account : Option Account) (p : Call Result),
      c.threads[i]? = some (.call account p) →
        ∃ a, account = some a ∧ ∀ r, p = .ret r → r.Settles a) ∧
    (∀ (i : Nat) (account : Option Account) (target : String) (k : Unit → Call Result),
      c.threads[i]? = some (.call account (.ask (.freeSlot target) k)) →
        0 < c.shared.slots target) ∧
    (∀ id, c.total (Local.weigh (Account.gave id)) =
      if id < c.shared.bodies.length then 1 else 0) ∧
    (∀ id, c.total (Local.weigh (Account.runs id)) =
      if c.shared.bodies[id]?.map Body.once = some .running then 1 else 0) ∧
    (∀ (i id : Nat) (account : Option Account) (k : Option Policy → Call Result) (b : Body)
      (x : Answer) (c' : Pool ClientState Local),
      c.threads[i]? = some (.call account (.ask (.onceDo id) k)) →
      c.shared.bodies[id]? = some b → b.once ≠ .ready →
      cl.calls.next c (.step i x) = some c' →
      c'.shared = c.shared ∧ ∃ account', c'.threads[i]? = some (.call account' (k none))) ∧
    (∀ (i id : Nat) (account : Option Account),
      c.threads[i]? = some (.call account (.ret (.closed id))) →
        c.shared.bodies[id]?.map Body.once = some .done) ∧
    c.shared.inFlight = (c.total (Local.weigh Account.inside) + c.shared.openBodies : Nat) ∧
    ∀ target, c.shared.slots target =
        c.total (Local.weigh (Account.has target)) + c.shared.heldBy target ∧
      c.shared.slots target ≤ cl.capacity target := by
  have hbalanced := balanced_of_reachable hc
  refine ⟨fun i account p hi => ?_, fun i account target k hi => freeSlot_possible hbalanced hi,
    hbalanced.given, hbalanced.running,
    fun i id account k b x c' hi hb honce h => close_again hi hb honce h,
    fun i id account hi => ?_, hbalanced.count,
    fun target => ⟨hbalanced.slots target, hbalanced.room target⟩⟩
  · obtain ⟨a, ha, hkeeps⟩ := hbalanced.calls i _ hi
    refine ⟨a, ha, fun r hr => ?_⟩
    subst hr
    exact hkeeps
  · obtain ⟨known, hknown, hp⟩ := releases_of_reachable hc i _ hi
    exact hknown id (hp id rfl)

def oneSlot : Policy where
  name := "api"
  timeout := 1
  maxConcurrent := 1
  maxConcurrentWait := 0
  retryMaxAttempts := 1
  retryBaseDelay := 0
  retryMaxDelay := 0
  limiter := false
  breaker := true
  budget := false

def oneTarget : Client where
  targets target := if target = "api" then some oneSlot else none
  named {target p} h := by
    split at h
    · cases h
      exact Eq.symm ‹_›
    · cases h

def get : Request where
  method := "GET"
  url := some ⟨"http", "api"⟩
  idempotencyKey := ""
  body := .nil
  getBody := false

/-- A response comes, and its body is closed. -/
def oneResponse : List (Act Local Answer Empty) :=
  [.spawn (.send "api" get false), .step 0 .go, .step 0 .go, .step 0 .go, .step 0 (.ctx none),
    .step 0 .go, .step 0 (.ticket (some ⟨0, false⟩)), .step 0 .go,
    .step 0 (.response (.ok ⟨200, ""⟩)), .step 0 .go, .step 0 .go,
    .spawn (.close 0), .step 1 .go, .step 1 .go, .step 1 .go, .step 1 .go, .step 1 .go, .step 1 .go,
    .step 1 .go]

theorem resource_balance_oneResponse :
    ∃ c, oneTarget.calls.run ⟨{}, []⟩ oneResponse = some c ∧ c.shared.inFlight = 0 ∧
      c.shared.slots "api" = 0 ∧ c.shared.bodies[0]?.map Body.once = some .done ∧
      c.total (Local.weigh (Account.has "api")) + c.shared.heldBy "api" = 0 := by
  obtain ⟨c, account, hrun, hclosed, hcount, hslots⟩ : ∃ c account,
      oneTarget.calls.run ⟨{}, []⟩ oneResponse = some c ∧
      c.threads[1]? = some (.call account (.ret (.closed 0))) ∧ c.shared.inFlight = 0 ∧
      c.shared.slots "api" = 0 := ⟨_, _, rfl, rfl, rfl, rfl⟩
  obtain ⟨-, -, -, -, -, hreleased, -, hbalance⟩ := resource_balance (Reachable.run .init hrun)
  have hheld := (hbalance "api").1
  exact ⟨c, hrun, hcount, hslots, hreleased 1 0 account hclosed, by omega⟩

end GolangBasics.Resilient
