import GolangBasics.Resilient.BreakerSteps
import Mathlib.Tactic.Ring

/-! The probe slots of a half-open breaker are its successes and the probes still in flight,
in every interleaving. -/
namespace GolangBasics.Resilient
open Conc Threads

def Pc.probing (g : Nat) (l : Pc) : Nat := if l.ticket = some ⟨g, true⟩ then 1 else 0

def inFlight (c : Pool Shared Pc) (g : Nat) : Nat := c.total (Pc.probing g)

structure Slots (b : Breaker) (c : Pool Shared Pc) : Prop where
  probes : c.shared.cur.val.probes =
    c.shared.cur.val.successes + inFlight c c.shared.cur.val.gen
  room : c.shared.cur.val.probes ≤ b.maxProbes
  few : c.shared.cur.val.successes < b.maxProbes
  nonneg : 0 ≤ c.shared.cur.val.successes

structure Inv (b : Breaker) (c : Pool Shared Pc) : Prop where
  knows : Pool.Each (fun _ => b.Knows) c
  slots : c.shared.cur.val.state = .halfOpen → Slots b c
  bound : ∀ g, (inFlight c g : Int) ≤ b.maxProbes

variable {b : Breaker} {i : Nat} {m m' : Shared} {l l' : Pc} {c : Pool Shared Pc}

theorem probing_of_ticket {t : Ticket} (h : l.ticket = some t) (g : Nat) :
    l.probing g = if t = ⟨g, true⟩ then 1 else 0 := by
  simp [Pc.probing, h]

theorem probing_of_none (h : l.ticket = none) (g : Nat) : l.probing g = 0 := by
  simp [Pc.probing, h]

theorem Breaker.Knows.gen_le (h : b.Knows m l) {t : Ticket} (ht : l.ticket = some t) :
    t.gen ≤ m.cur.val.gen := by
  cases l with
  | allow | allowNow s | allowOpen s | allowProbe s | rejected | recorded => cases ht
  | held t' =>
    cases ht
    exact h
  | record t' f | probe t' o =>
    cases ht
    exact h.1
  | recordNow t' f s | recordLock t' f s n | recordTrip t' f s n x y =>
    cases ht
    rw [← h.2.2.1]
    exact h.1.2.2
  | probeNow t' s | probeSwap t' o s n =>
    cases ht
    rw [← h.2.2.1]
    exact h.1.2.2
  | notify x y t' | notifyState t' | notifyGauge x t' => exact h t ht

/-- No ticket is of a generation still to come. -/
theorem inFlight_of_lt (hc : Pool.Each (fun _ => b.Knows) c) {g : Nat}
    (hg : c.shared.cur.val.gen < g) : inFlight c g = 0 := by
  refine Pool.total_eq_zero fun i l hl => ?_
  unfold Pc.probing
  split
  · rename_i ht
    have hle := (hc i l hl).gen_le ht
    simp only at hle
    omega
  · rfl

theorem inFlight_set (hl : c.threads[i]? = some l) (m : Shared) (l' : Pc) (g : Nat) :
    inFlight ⟨m, c.threads.set i l'⟩ g + l.probing g = inFlight c g + l'.probing g :=
  Pool.total_set hl

/-- A step exchanges at most one probe ticket. -/
theorem Effect.probing (h : Effect b i m l l' m') :
    (∀ g, l'.probing g ≤ l.probing g) ∨
      (∃ g, l'.ticket = some ⟨g, true⟩ ∧ l.ticket = none ∧ m'.cur.val.state = .halfOpen ∧
        m'.cur.val.gen = g) := by
  cases h with
  | quiet _ _ _ hticket => exact .inl fun g => by simp [Pc.probing, hticket]
  | issue _ _ hticket hticket' =>
    refine .inl fun g => ?_
    rw [probing_of_ticket hticket']
    simp
  | drop t _ _ hticket' | count o _ _ _ _ _ _ hticket' | trip n _ _ _ _ _ hticket' =>
    exact .inl fun g => by simp [probing_of_none hticket']
  | decide o next _ _ _ _ _ _ _ hticket' =>
    exact .inl fun g => by simp [probing_of_none hticket']
  | enter _ _ hcur _ _ hticket hticket' =>
    exact .inr ⟨_, hticket', hticket, by rw [hcur], by rw [hcur]⟩
  | take hstate _ hcur _ _ hticket hticket' =>
    exact .inr ⟨_, hticket', hticket, by rw [hcur]; exact hstate, by rw [hcur]⟩

/-- The step lemma of the accounting, one case for each effect. -/
theorem slots_step (hmax : 1 ≤ b.maxProbes) (hc : Inv b c) (hl : c.threads[i]? = some l)
    (h : Effect b i c.shared l l' m') (hstate : m'.cur.val.state = .halfOpen) :
    Slots b ⟨m', c.threads.set i l'⟩ := by
  have hset := inFlight_set hl m' l'
  cases h with
  | quiet hcur _ _ hticket =>
    have hslots := hc.slots (by rwa [hcur] at hstate)
    have hsame := hset c.shared.cur.val.gen
    simp only [Pc.probing, hticket] at hsame
    have hprobes := hslots.probes
    constructor
    · simp only [hcur]
      omega
    · simpa only [hcur] using hslots.room
    · simpa only [hcur] using hslots.few
    · simpa only [hcur] using hslots.nonneg
  | issue hclosed hsame =>
    simp [hsame, hclosed] at hstate
  | drop t hsame hticket hticket' hold =>
    rw [hsame] at hstate
    have hslots := hc.slots hstate
    have hold : ¬(t = ⟨c.shared.cur.val.gen, true⟩) := by
      rintro rfl
      simp [hstate] at hold
    have hkeep := hset c.shared.cur.val.gen
    rw [probing_of_ticket hticket, if_neg hold, probing_of_none hticket'] at hkeep
    have hprobes := hslots.probes
    subst hsame
    constructor
    · simp only
      omega
    · exact hslots.room
    · exact hslots.few
    · exact hslots.nonneg
  | enter _ _ hcur _ _ hticket hticket' =>
    have hnew := hset (c.shared.cur.val.gen + 1)
    rw [probing_of_none hticket, probing_of_ticket hticket', if_pos rfl,
      inFlight_of_lt hc.knows (by omega)] at hnew
    constructor
    · simp only [hcur]
      omega
    · simpa only [hcur] using hmax
    · simp only [hcur]
      omega
    · simp only [hcur]
      omega
  | take hhalf hfree hcur _ _ hticket hticket' =>
    have hslots := hc.slots hhalf
    have hmore := hset c.shared.cur.val.gen
    rw [probing_of_none hticket, probing_of_ticket hticket', if_pos rfl] at hmore
    have hprobes := hslots.probes
    constructor
    · simp only [hcur]
      omega
    · simp only [hcur]
      omega
    · simpa only [hcur] using hslots.few
    · simpa only [hcur] using hslots.nonneg
  | count o hhalf ho hcur _ _ hticket hticket' =>
    have hslots := hc.slots hhalf
    have hless := hset c.shared.cur.val.gen
    rw [probing_of_ticket hticket, if_pos rfl, probing_of_none hticket'] at hless
    have hprobes := hslots.probes
    have hroom := hslots.room
    have hfew := hslots.few
    have hnonneg := hslots.nonneg
    rcases ho with rfl | ⟨rfl, hlast⟩
    · constructor <;> simp only [hcur, Breaker.settle] <;> omega
    · constructor <;> simp only [hcur, settle_success hlast] <;> omega
  | decide o next _ ho _ hcur =>
    rw [hcur] at hstate
    rcases ho with ⟨-, -, hnext⟩ | ⟨-, hnext⟩ <;> simp [hnext] at hstate
  | trip _ _ hcur => simp [hcur] at hstate

theorem knows_step (hc : Pool.Each (fun _ => b.Knows) c) (h : Stepped b i c.shared l l' m') :
    Pool.Each (fun _ => b.Knows) ⟨m', c.threads.set i l'⟩ :=
  Pool.each_set hc h.knows fun _ _ _ _ hk => hk.grows (h.effect.grows h.clock)

theorem inv_step (hmax : 1 ≤ b.maxProbes) (hc : Inv b c) (hl : c.threads[i]? = some l)
    (h : Stepped b i c.shared l l' m') : Inv b ⟨m', c.threads.set i l'⟩ := by
  refine ⟨knows_step hc.knows h, slots_step hmax hc hl h.effect, fun g => ?_⟩
  have hset := inFlight_set hl m' l' g
  have hbound := hc.bound g
  rcases h.effect.probing with hless | ⟨g', hticket', -, hstate, hgen⟩
  · have hless := hless g
    omega
  · by_cases hg : g = g'
    · -- the new ticket is of the half-open generation, whose slots are bounded
      have hslots := slots_step hmax hc hl h.effect hstate
      have hprobes := hslots.probes
      have hroom := hslots.room
      have hnonneg := hslots.nonneg
      rw [hg, ← hgen]
      simp only at hprobes hroom hnonneg
      omega
    · have hother : l'.probing g = 0 := by
        rw [probing_of_ticket hticket']
        simp [Ne.symm hg]
      omega

theorem knows_of_reachable (hc : b.requests.Reachable b.init c) :
    Pool.Each (fun _ => b.Knows) c := by
  refine ReachableIf.invariant hc (by simp [Pool.Each]) ?_ ?_ ?_
  · intro c l hknows hl
    obtain rfl : l = .allow := by simpa [Breaker.requests] using hl
    exact Pool.each_spawn hknows trivial
  · intro c i x l l' m hknows _ hl hstep
    exact knows_step hknows (step_spec (hknows i l hl) hstep)
  · intro c d m hknows _ henv
    cases henv
    exact Pool.each_env hknows fun _ _ hk => hk.grows ⟨Nat.le_add_right _ _, .inl rfl⟩

theorem inv_init (hmax : 1 ≤ b.maxProbes) : Inv b ⟨b.init, []⟩ := by
  refine ⟨by simp [Pool.Each], by simp [Breaker.init], fun g => ?_⟩
  have hnone : inFlight ⟨b.init, []⟩ g = 0 := rfl
  omega

theorem inv_of_reachable (hmax : 1 ≤ b.maxProbes) (hc : b.requests.Reachable b.init c) :
    Inv b c := by
  refine ReachableIf.invariant hc (inv_init hmax) ?_ ?_ ?_
  · intro c l hinv hl
    obtain rfl : l = .allow := by simpa [Breaker.requests] using hl
    have hsame : ∀ g, inFlight ⟨c.shared, c.threads ++ [.allow]⟩ g = inFlight c g :=
      fun g => Pool.total_spawn
    refine ⟨Pool.each_spawn hinv.knows trivial, fun hstate => ?_, fun g => ?_⟩
    · have hslots := hinv.slots hstate
      exact ⟨by rw [hsame]; exact hslots.probes, hslots.room, hslots.few, hslots.nonneg⟩
    · rw [hsame]
      exact hinv.bound g
  · intro c i x l l' m hinv _ hl hstep
    exact inv_step hmax hinv hl (step_spec (hinv.knows i l hl) hstep)
  · intro c d m hinv _ henv
    cases henv
    have hgrows : Grows c.shared { c.shared with clock := c.shared.clock + d } :=
      ⟨Nat.le_add_right _ _, .inl rfl⟩
    refine ⟨Pool.each_env hinv.knows fun _ _ hk => hk.grows hgrows, fun hstate => ?_, hinv.bound⟩
    have hslots := hinv.slots hstate
    exact ⟨hslots.probes, hslots.room, hslots.few, hslots.nonneg⟩

/-- A request is admitted in two steps while the half-open breaker has a free slot. -/
theorem allow_admitted (hstate : c.shared.cur.val.state = .halfOpen)
    (hfree : c.shared.cur.val.probes < b.maxProbes) (hi : c.threads[i]? = some .allow) :
    ∃ c', b.requests.run c [.step i .go, .step i .go] = some c' ∧
      c'.threads[i]? = some (.held ⟨c.shared.cur.val.gen, true⟩) := by
  have hload : b.requests.step i .allow .go c.shared =
      some (.allowProbe c.shared.cur, c.shared) := by
    simp only [Breaker.requests, Breaker.step, hstate, if_neg (not_le.mpr hfree)]
  have hself : (c.threads.set i (.allowProbe c.shared.cur))[i]? = some (.allowProbe c.shared.cur) :=
    Pool.set_self hi
  have hcas : b.requests.step i (.allowProbe c.shared.cur) .go c.shared =
      some (.held ⟨c.shared.cur.val.gen, true⟩, { c.shared with cur := ⟨c.shared.cur.addr + 1,
        { c.shared.cur.val with probes := c.shared.cur.val.probes + 1 }⟩ }) := by
    simp [Breaker.requests, Breaker.step, Shared.compareAndSwap]
  have hnext := next_step (T := b.requests)
    (c := ⟨c.shared, c.threads.set i (.allowProbe c.shared.cur)⟩) hself hcas
  have hheld := Pool.set_self (k := Pc.held ⟨c.shared.cur.val.gen, true⟩) hself
  exact ⟨_, run_cons (next_step hi hload) (run_cons hnext rfl), hheld⟩

/-- A half-open breaker that refuses a request has handed out all its slots. -/
theorem allow_rejected {c' : Pool Shared Pc} (hi : c.threads[i]? = some .allow)
    (h : b.requests.next c (.step i .go) = some c') (hi' : c'.threads[i]? = some .rejected) :
    c.shared.cur.val.state = .halfOpen ∧ b.maxProbes ≤ c.shared.cur.val.probes := by
  simp only [next, hi] at h
  obtain ⟨⟨l', m⟩, hstep, rfl⟩ := Option.map_eq_some_iff.mp h
  have hl' : l' = .rejected := by
    have hself : (c.threads.set i l')[i]? = some l' := Pool.set_self hi
    exact Option.some.inj (hself.symm.trans hi')
  subst hl'
  simp only [Breaker.requests, Breaker.step] at hstep
  split at hstep
  · cases hstep
  · cases hstep
  · rename_i hstate
    split at hstep
    · exact ⟨hstate, ‹_›⟩
    · cases hstep

/-- In every half-open snapshot the slots handed out are the successes and the probes in
flight. So no generation ever has more than `maxProbes` probes in flight, a half-open breaker
refuses a request only while a probe of its generation is in flight, and once there is none
the next request is admitted. -/
theorem probe_accounting (hmax : 1 ≤ b.maxProbes) (hc : b.requests.Reachable b.init c) :
    (c.shared.cur.val.state = .halfOpen →
      c.shared.cur.val.probes =
        c.shared.cur.val.successes + inFlight c c.shared.cur.val.gen ∧
      c.shared.cur.val.probes ≤ b.maxProbes ∧ c.shared.cur.val.successes < b.maxProbes) ∧
    (∀ g, (inFlight c g : Int) ≤ b.maxProbes) ∧
    (∀ i c', c.threads[i]? = some .allow → b.requests.next c (.step i .go) = some c' →
      c'.threads[i]? = some .rejected → 0 < inFlight c c.shared.cur.val.gen) ∧
    (c.shared.cur.val.state = .halfOpen → inFlight c c.shared.cur.val.gen = 0 →
      ∀ i, c.threads[i]? = some .allow →
        ∃ c', b.requests.run c [.step i .go, .step i .go] = some c' ∧
          c'.threads[i]? = some (.held ⟨c.shared.cur.val.gen, true⟩)) := by
  have hinv := inv_of_reachable hmax hc
  refine ⟨fun hstate => ?_, hinv.bound, fun i c' hi h hi' => ?_, fun hstate hnone i hi => ?_⟩
  · have hslots := hinv.slots hstate
    exact ⟨hslots.probes, hslots.room, hslots.few⟩
  · obtain ⟨hstate, hfull⟩ := allow_rejected hi h hi'
    have hslots := hinv.slots hstate
    have hprobes := hslots.probes
    have hfew := hslots.few
    omega
  · have hslots := hinv.slots hstate
    have hprobes := hslots.probes
    have hfew := hslots.few
    exact allow_admitted hstate (by omega) hi

def twoProbes : Breaker where
  reaches _ _ := true
  minRequests := 1
  openTimeout := 5
  maxProbes := 2
  length := 100

/-- Request 0 fails and opens the breaker. Requests 1 and 2 become probes and stay without a
verdict, so request 3 finds a half-open breaker with no probe in flight. -/
def bothIgnored : List (Act Pc Choice Nat) :=
  [.spawn .allow, .step 0 .go, .step 0 (.finish .failure), .step 0 .go, .step 0 .go, .step 0 .go,
    .step 0 .go, .env 5,
    .spawn .allow, .step 1 .go, .step 1 .go, .step 1 .go, .spawn .allow, .step 2 .go, .step 2 .go,
    .step 1 .go, .step 1 .go, .step 1 .go, .step 1 (.finish .ignored), .step 1 .go, .step 1 .go,
    .step 2 (.finish .ignored), .step 2 .go, .step 2 .go, .spawn .allow]

theorem probe_accounting_bothIgnored :
    ∃ c, twoProbes.requests.run ⟨twoProbes.init, []⟩ bothIgnored = some c ∧
      c.shared.cur.val.state = .halfOpen ∧ c.shared.cur.val.gen = 2 ∧ inFlight c 2 = 0 ∧
      ∃ c', twoProbes.requests.run c [.step 3 .go, .step 3 .go] = some c' ∧
        c'.threads[3]? = some (.held ⟨2, true⟩) := by
  obtain ⟨c, hrun, hcur, hthreads⟩ :
      ∃ c, twoProbes.requests.run ⟨twoProbes.init, []⟩ bothIgnored = some c ∧
        c.shared.cur.val = { state := .halfOpen, gen := 2 } ∧
        c.threads = [.notify .closed .open none, .recorded, .recorded, .allow] :=
    ⟨_, rfl, rfl, rfl⟩
  have hnone : inFlight c 2 = 0 := by
    unfold inFlight Pool.total
    rw [hthreads]
    rfl
  have hc : twoProbes.requests.Reachable twoProbes.init c := Reachable.run .init hrun
  have hlast := (probe_accounting (b := twoProbes) (by decide) hc).2.2.2
  rw [hcur] at hlast
  exact ⟨c, hrun, by rw [hcur], by rw [hcur], hnone, hlast rfl hnone 3 (by rw [hthreads]; rfl)⟩

end GolangBasics.Resilient
