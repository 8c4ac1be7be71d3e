import GolangBasics.Kafka.Rdkafka.ClientOwners

/-! Every client of the producer is closed exactly once, no call is inside it then, and `Close`
returns only when all of them are closed. -/
namespace GolangBasics.Kafka.Rdkafka.Producer
open Conc List Option

variable {c c' : Pool Shared Pc} {m m' : Shared} {l l' : Pc} {i : Nat} {x : Choice}

/-- The accounts: who holds the lock, who is counted in `wg`, which call closes the producer,
who owes the close of each client and who is at it. -/
structure Inv (c : Pool Shared Pc) : Prop where
  held : c.shared.mu.Held (c.total Pc.reads) (c.total Pc.writes)
  wg : c.shared.wg = c.total Pc.counted + c.shared.starting.length
  closer : c.shared.closed.toNat = c.total Pc.closer
  owes : ∀ k, c.shared.begun k + c.total (Pc.owes k) + c.shared.current k = c.shared.created k
  closes : ∀ k, c.shared.begun k = c.shared.ended k + c.total (Pc.closes k)
  knows : c.Each fun _ m l => Knows m l

theorem inv_init : Inv ⟨newProducer, []⟩ := by
  refine ⟨RWMutex.held_unlocked, rfl, rfl, fun k => ?_, fun k => ?_, by simp [Pool.Each]⟩
  · cases k <;> rfl
  · cases k <;> rfl

theorem start_cases (h : producer.start l) :
    l = .rLock .send ∨ l = .rLock .ping ∨ l = .closeLock ∨ l = .goroutine := by
  simpa [producer] using h

theorem inv_spawn (hc : Inv c) (h : producer.start l) : Inv ⟨c.shared, c.threads ++ [l]⟩ := by
  have hzero : l.reads = 0 ∧ l.writes = 0 ∧ l.counted = 0 ∧ l.closer = 0 ∧
      (∀ k, l.owes k = 0) ∧ (∀ k, l.closes k = 0) ∧ Knows c.shared l := by
    rcases start_cases h with rfl | rfl | rfl | rfl <;>
      exact ⟨rfl, rfl, rfl, rfl, fun _ => rfl, fun _ => rfl, trivial⟩
  obtain ⟨hreads, hwrites, hcounted, hcloser, howes, hcloses, hknows⟩ := hzero
  refine ⟨?_, ?_, ?_, fun k => ?_, fun k => ?_, Pool.each_spawn hc.knows hknows⟩
  · rw [Pool.total_spawn, Pool.total_spawn, hreads, hwrites]
    exact hc.held
  · rw [Pool.total_spawn, hcounted]
    exact hc.wg
  · rw [Pool.total_spawn, hcloser]
    exact hc.closer
  · rw [Pool.total_spawn, howes]
    exact hc.owes k
  · rw [Pool.total_spawn, hcloses]
    exact hc.closes k

theorem Inv.fits (hc : Inv c) (hl : c.threads[i]? = some l) : Fits c.shared l := by
  refine ⟨?_, fun k => ?_, fun k => ?_, hc.knows i l hl⟩
  · have hle : l.counted ≤ c.total Pc.counted := Pool.le_total hl
    have hwg := hc.wg
    omega
  · have hle : l.owes k ≤ c.total (Pc.owes k) := Pool.le_total hl
    have howes := hc.owes k
    omega
  · have hle : l.closes k ≤ c.total (Pc.closes k) := Pool.le_total hl
    have howes := hc.owes k
    have hcloses := hc.closes k
    omega

/-- Nobody else changes `cl` or `closed` while a thread holds the lock. -/
theorem Inv.still (hc : Inv c) (hl : c.threads[i]? = some l) {j : Nat} {k : Pc} (hj : j ≠ i)
    (hk : c.threads[j]? = some k) (hlock : k.reads = 1 ∨ k.writes = 1)
    (hd : Delta c.shared l l' m') : m'.cl = c.shared.cl ∧ m'.closed = c.shared.closed := by
  refine hd.still ?_
  by_contra hne
  have hle : l.writes + k.writes ≤ c.total Pc.writes := Pool.add_le_total hl hk hj
  have hone := hc.held.writes_le
  rcases hlock with hreads | hwrites
  · have hread : k.reads ≤ c.total Pc.reads := Pool.le_total hk
    have hnone := hc.held.alone (by omega)
    omega
  · omega

theorem Inv.finished (hc : Inv c) (hl : c.threads[i]? = some l) (hclosed : c.shared.closed)
    (hall : ∀ k, c.shared.ended k = c.shared.created k) (hd : Delta c.shared l l' m') :
    ∀ k, m'.ended k = m'.created k := by
  intro k
  have hcreated : m'.created k = c.shared.created k := by
    unfold Shared.created
    rw [hd.created hclosed]
  have hcurrent : c.shared.current k = 0 := by simp [Shared.current, hclosed]
  have howed : l.owes k ≤ c.total (Pc.owes k) := Pool.le_total hl
  have hclosing : l.closes k ≤ c.total (Pc.closes k) := Pool.le_total hl
  have howes := hc.owes k
  have hcloses := hc.closes k
  have hended := hall k
  have hd₁ := hd.owes k
  have hd₂ := hd.closes k
  have hd₃ := hd.ended k
  omega

theorem closed_of_closer (hc : Inv c) (hl : c.threads[i]? = some l) (hcloser : l.closer = 1) :
    c.shared.closed = true := by
  have hle : l.closer ≤ c.total Pc.closer := Pool.le_total hl
  have htotal := hc.closer
  cases hclosed : c.shared.closed with
  | true => rfl
  | false =>
    rw [hclosed] at htotal
    simp only [Bool.toNat_false] at htotal
    omega

theorem knows_keep (hc : Inv c) (hl : c.threads[i]? = some l) (hd : Delta c.shared l l' m')
    {j : Nat} {k : Pc} (hj : j ≠ i) (hk : c.threads[j]? = some k) (hknows : Knows c.shared k) :
    Knows m' k := by
  cases k with
  | inside call cl =>
    obtain ⟨hcl, hclosed⟩ := hc.still hl hj hk (.inl rfl) hd
    exact ⟨hclosed.trans hknows.1, hcl.trans hknows.2⟩
  | replaceCreate failed =>
    obtain ⟨hcl, hclosed⟩ := hc.still hl hj hk (.inr rfl) hd
    exact ⟨hclosed.trans hknows.1, hcl.trans hknows.2⟩
  | replaceSwap failed cl =>
    obtain ⟨hcl, hclosed⟩ := hc.still hl hj hk (.inr rfl) hd
    exact ⟨hclosed.trans hknows.1, hcl.trans hknows.2⟩
  | closed => exact hc.finished hl (closed_of_closer hc hk rfl) hknows hd
  | _ => trivial

def Pc.early : Pc → Nat
  | .closeUnlock (some _) | .flush _ | .flushing _ | .closeClient _ | .closingClient _ => 1
  | _ => 0

/-- Whoever owes a close or is at it is counted, or is the call of `Close`. -/
theorem Pc.owes_le (k : Nat) (l : Pc) :
    l.owes k ≤ l.counted + l.early ∧ l.closes k ≤ l.counted + l.early := by
  have hif : ∀ cl : Nat, (if cl = k then 1 else 0) ≤ 1 := by
    intro cl
    split_ifs <;> omega
  cases l with
  | replaceUnlock cl swapped => cases swapped <;> simp [owes, closes, counted, early, hif]
  | closeUnlock cl => cases cl <;> simp [owes, closes, counted, early, hif]
  | _ => simp [owes, closes, counted, early, hif]

theorem Pc.early_le (l : Pc) : l.early + (if l = .wait then 1 else 0) ≤ l.closer := by
  cases l with
  | closeUnlock cl => cases cl <;> simp [early, closer]
  | _ => simp [early, closer]

/-- When nobody is counted any more, the call of `Close` finds every client closed. -/
theorem Inv.all_ended (hc : Inv c) (hl : c.threads[i]? = some .wait) (hwg : c.shared.wg = 0)
    (k : Nat) : c.shared.ended k = c.shared.created k := by
  have hclosed := closed_of_closer hc hl rfl
  have hcurrent : c.shared.current k = 0 := by simp [Shared.current, hclosed]
  have hcloser := hc.closer
  rw [hclosed] at hcloser
  have hcounted : c.total Pc.counted = 0 := by
    have := hc.wg
    omega
  have hearly : c.total Pc.early = 0 := by
    have hsplit : c.total (fun l => l.early + if l = .wait then 1 else 0) ≤ c.total Pc.closer :=
      Pool.total_le Pc.early_le
    have hself : (if Pc.wait = .wait then 1 else 0) ≤
        c.total fun l => if l = .wait then 1 else 0 :=
      Pool.le_total (f := fun l => if l = .wait then 1 else 0) hl
    rw [Pool.total_add] at hsplit
    simp only [Bool.toNat_true, if_true] at hcloser hself
    omega
  have hnone : c.total (fun l => l.counted + l.early) = 0 := by
    rw [Pool.total_add]
    omega
  have howed : c.total (Pc.owes k) ≤ c.total fun l => l.counted + l.early :=
    Pool.total_le fun l => (l.owes_le k).1
  have hclosing : c.total (Pc.closes k) ≤ c.total fun l => l.counted + l.early :=
    Pool.total_le fun l => (l.owes_le k).2
  have howes := hc.owes k
  have hcloses := hc.closes k
  omega

theorem knows_step (hc : Inv c) (hl : c.threads[i]? = some l)
    (h : step i l x c.shared = some (l', m')) : Knows m' l' := by
  have hknows := hc.knows i l hl
  cases l with
  | check k =>
    cases k <;> cases x <;> simp only [step, reduceCtorEq] at h <;> cases h
    · split_ifs with hclosed
      · trivial
      · exact ⟨by simpa using hclosed, rfl⟩
    · split_ifs with hclosed
      · trivial
      · exact ⟨by simpa using hclosed, rfl⟩
    · trivial
  | replaceCheck failed =>
    cases x <;> simp only [step, reduceCtorEq] at h
    cases h
    split_ifs with hstale
    · trivial
    · simpa [Knows] using hstale
  | replaceCreate failed =>
    cases x <;> simp only [step, reduceCtorEq] at h <;> cases h
    · exact hknows
    · trivial
  | wait =>
    cases x <;> simp only [step, reduceCtorEq] at h
    split_ifs at h with hwg
    cases h
    exact hc.all_ended hl hwg
  | rLock _ | startLock _ | replaceLock _ | closeLock =>
    cases x <;> simp only [step, reduceCtorEq] at h
    obtain ⟨mu, -, heq⟩ := map_eq_some_iff.mp h
    cases heq
    trivial
  | goroutine =>
    cases x <;> simp only [step, reduceCtorEq] at h
    obtain ⟨g, -, heq⟩ := map_eq_some_iff.mp h
    cases heq
    cases g <;> trivial
  | inside k cl =>
    cases k <;> cases x <;> simp only [step, reduceCtorEq] at h <;> cases h <;> trivial
  | rUnlock b | replaceUnlock failed b | closeUnlock b =>
    cases x <;> simp only [step, reduceCtorEq] at h
    cases h
    cases b <;> trivial
  | pumpLogs cl | pumpEvents cl | closeCheck =>
    cases x <;> simp only [step, reduceCtorEq] at h
    all_goals
      try split_ifs at h
      all_goals
        cases h
        trivial
  | closed | returned => cases x <;> simp [step] at h
  | _ =>
    cases x <;> simp only [step, reduceCtorEq] at h <;> cases h <;> trivial

theorem inv_step (hc : Inv c) (hl : c.threads[i]? = some l)
    (h : step i l x c.shared = some (l', m')) : Inv ⟨m', c.threads.set i l'⟩ := by
  have hd := step_delta (hc.fits hl) h
  refine ⟨?_, ?_, ?_, fun k => ?_, fun k => ?_, Pool.each_set hc.knows (knows_step hc hl h)
    fun j k hj hk hknows => knows_keep hc hl hd hj hk hknows⟩
  · have hreads := Pool.total_set (s := m') (k := l') (f := Pc.reads) hl
    have hwrites := Pool.total_set (s := m') (k := l') (f := Pc.writes) hl
    have hler : l.reads ≤ c.total Pc.reads := Pool.le_total hl
    have hlew : l.writes ≤ c.total Pc.writes := Pool.le_total hl
    have hheld := hd.held (c.total Pc.reads - l.reads) (c.total Pc.writes - l.writes)
      (by rw [Nat.sub_add_cancel hler, Nat.sub_add_cancel hlew]; exact hc.held)
    have hr : c.total Pc.reads - l.reads + l'.reads =
        (Pool.mk m' (c.threads.set i l')).total Pc.reads := by omega
    have hw : c.total Pc.writes - l.writes + l'.writes =
        (Pool.mk m' (c.threads.set i l')).total Pc.writes := by omega
    rwa [hr, hw] at hheld
  · have htotal := Pool.total_set (s := m') (k := l') (f := Pc.counted) hl
    have hwg := hc.wg
    have hdelta := hd.wg
    show m'.wg = _ + m'.starting.length
    omega
  · have htotal := Pool.total_set (s := m') (k := l') (f := Pc.closer) hl
    have hcloser := hc.closer
    have hdelta := hd.closer
    show m'.closed.toNat = _
    omega
  · have htotal := Pool.total_set (s := m') (k := l') (f := Pc.owes k) hl
    have howes := hc.owes k
    have hdelta := hd.owes k
    show m'.begun k + _ + m'.current k = m'.created k
    omega
  · have htotal := Pool.total_set (s := m') (k := l') (f := Pc.closes k) hl
    have hcloses := hc.closes k
    have hdelta := hd.closes k
    show m'.begun k = m'.ended k + _
    omega

theorem inv_of_reachable (hc : producer.Reachable newProducer c) : Inv c :=
  hc.invariant inv_init (fun _ _ => inv_spawn) (fun _ _ _ _ _ _ hinv _ => inv_step hinv)
    fun _ e => nomatch e

/-- The close of a client that a call is inside of has not begun. -/
theorem Inv.not_begun (hc : Inv c) (hl : c.threads[i]? = some l) {cl : Nat}
    (hin : l.client = some cl) : c.shared.begun cl = 0 := by
  have howes := hc.owes cl
  have hcreated : c.shared.created cl ≤ 1 := by
    unfold Shared.created
    split_ifs <;> omega
  cases l with
  | inside k cl' =>
    obtain rfl : cl' = cl := some.inj hin
    have hknows := hc.knows i _ hl
    have hcurrent : c.shared.current cl' = 1 := if_pos hknows
    omega
  | flushing cl' =>
    obtain rfl : cl' = cl := some.inj hin
    have hle : Pc.owes cl' (.flushing cl') ≤ c.total (Pc.owes cl') := Pool.le_total hl
    have hself : Pc.owes cl' (.flushing cl') = 1 := if_pos rfl
    omega
  | _ => cases hin

/-- In every interleaving: a client whose close has begun has no call inside it; no client is
closed twice; when the `Close` that closed the producer has returned, every client ever
created is closed; and from the moment the producer is marked closed none is created. -/
theorem producer_lifecycle (hc : producer.Reachable newProducer c) :
    (∀ (i : Nat) (l : Pc) (cl : Nat), c.threads[i]? = some l → l.client = some cl →
      c.shared.begun cl = 0) ∧
    (∀ cl ∈ c.shared.clients, cl.ended ≤ cl.begun ∧ cl.begun ≤ 1) ∧
    (∀ i : Nat, c.threads[i]? = some .closed → ∀ cl ∈ c.shared.clients, cl = ⟨1, 1⟩) ∧
    (∀ a c', producer.next c a = some c' → c.shared.closed →
      c'.shared.closed ∧ c'.shared.clients.length = c.shared.clients.length) := by
  have hinv := inv_of_reachable hc
  have hcounts : ∀ k (hk : k < c.shared.clients.length), c.shared.created k = 1 ∧
      c.shared.begun k = c.shared.clients[k].begun ∧
      c.shared.ended k = c.shared.clients[k].ended := by
    intro k hk
    refine ⟨if_pos hk, ?_, ?_⟩
    · rw [Shared.begun, List.getElem?_eq_getElem hk]
      rfl
    · rw [Shared.ended, List.getElem?_eq_getElem hk]
      rfl
  refine ⟨fun i l cl hl hin => hinv.not_begun hl hin, fun cl hcl => ?_, fun i hl cl hcl => ?_,
    fun a c' hnext hclosed => ?_⟩
  · obtain ⟨k, hk, rfl⟩ := getElem_of_mem hcl
    obtain ⟨hcreated, hbegun, hended⟩ := hcounts k hk
    have howes := hinv.owes k
    have hcloses := hinv.closes k
    omega
  · obtain ⟨k, hk, rfl⟩ := getElem_of_mem hcl
    obtain ⟨hcreated, hbegun, hended⟩ := hcounts k hk
    have hall := hinv.knows i _ hl k
    have howes := hinv.owes k
    have hcloses := hinv.closes k
    have hb : c.shared.clients[k].begun = 1 := by omega
    have he : c.shared.clients[k].ended = 1 := by omega
    exact Client.ext hb he
  · rcases Threads.next_cases hnext with ⟨l, -, -, rfl⟩ | ⟨i, x, l, l', m', -, hl, hstep, rfl⟩ |
      ⟨e, -⟩
    · exact ⟨hclosed, rfl⟩
    · have hd := step_delta (i := i) (hinv.fits hl) hstep
      exact ⟨hd.closed hclosed, hd.created hclosed⟩
    · exact nomatch e

/-- A fatal error while a `Send` is inside the client. The client is replaced once the `Send`
has left it, and `Close` runs into the replacement before the old client is closed. -/
def replacedUnderway : List (Act Pc Choice Empty) :=
  [.spawn .goroutine, .step 0 (.pick 1), .step 0 .fatal, .step 0 .go, .step 0 .go, .step 0 .go,
    .spawn (.rLock .send), .step 1 .go, .step 1 .go, .spawn .goroutine, .step 2 (.pick 1),
    .step 1 .go, .step 1 .go, .step 2 .go, .step 2 .go, .step 2 .go, .step 2 .go, .step 2 .go,
    .spawn .closeLock, .step 3 .go, .step 3 .go, .step 3 .go, .step 3 .go, .step 3 .go,
    .step 3 .go, .step 3 .go, .step 2 .go, .step 2 .go, .step 2 .go, .step 0 .drained,
    .spawn .goroutine, .step 4 (.pick 0), .step 4 .drained, .spawn .goroutine, .step 5 (.pick 0),
    .step 5 .drained, .spawn .goroutine, .step 6 (.pick 0), .step 6 .drained, .step 3 .go]

theorem producer_lifecycle_replacedUnderway :
    ∃ c, producer.run ⟨newProducer, []⟩ replacedUnderway = some c ∧
      c.threads[3]? = some .closed ∧ c.shared.clients.length = 2 ∧
      ∀ cl ∈ c.shared.clients, cl = ⟨1, 1⟩ := by
  obtain ⟨c, hrun, hclosed, hlen⟩ : ∃ c, producer.run ⟨newProducer, []⟩ replacedUnderway = some c ∧
    c.threads[3]? = some .closed ∧ c.shared.clients.length = 2 := ⟨_, rfl, rfl, rfl⟩
  have hlifecycle := producer_lifecycle (Threads.Reachable.run .init hrun)
  exact ⟨c, hrun, hclosed, hlen, hlifecycle.2.2.1 3 hclosed⟩

end GolangBasics.Kafka.Rdkafka.Producer
