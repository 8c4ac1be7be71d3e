import GolangBasics.Resilient.Counting

/-! The exported state gauge and transition counters of a breaker. The notification of a
transition counts it, reads the state and writes the gauge, and notifications overlap. -/
namespace GolangBasics.Resilient
open Conc Threads List Option

def Pc.notifying : Pc → Bool
  | .notify .. | .notifyState _ | .notifyGauge .. => true
  | _ => false

/-- The thread is to write the state to the gauge, as long as no other transition is made. -/
def Pc.toWrite (state : BreakerState) : Pc → Bool
  | .notify .. | .notifyState _ => true
  | .notifyGauge read _ => read = state
  | _ => false

def Pc.uncounted (source target : BreakerState) : Pc → Nat
  | .notify s t _ => if s = source ∧ t = target then 1 else 0
  | _ => 0

def Transition.along (source target : BreakerState) (x : Transition) : Bool :=
  x.source = source ∧ x.target = target

def Settled (c : Pool Shared Pc) : Prop := ∀ l ∈ c.threads, l.notifying = false

/-- The gauge is written with the current state, or somebody else is still to do so. -/
def writesLast (c : Pool Shared Pc) : Act Pc Choice Nat → Bool
  | .step i .go =>
    match c.threads[i]? with
    | some (.notifyGauge read _) => read = c.shared.cur.val.state ||
        (c.threads.eraseIdx i).any (Pc.toWrite c.shared.cur.val.state)
    | _ => true
  | _ => true

inductive Notified (i : Nat) (m : Shared) (l l' : Pc) (m' : Shared) : Prop where
  | none (hl : l.notifying = false) (hl' : l'.notifying = false)
      (hstate : m'.cur.val.state = m.cur.val.state) (htransitions : m'.transitions = m.transitions)
      (hcounters : m'.counters = m.counters) (hgauge : m'.gauge = m.gauge)
  | change (source target : BreakerState) (t : Option Ticket) (g : Nat)
      (hl : l.notifying = false) (hl' : l' = .notify source target t)
      (htransitions : m'.transitions = ⟨i, source, target, g⟩ :: m.transitions)
      (hcounters : m'.counters = m.counters)
  | count (source target : BreakerState) (t : Option Ticket) (hl : l = .notify source target t)
      (hl' : l' = .notifyState t) (hcur : m'.cur = m.cur)
      (htransitions : m'.transitions = m.transitions) (hgauge : m'.gauge = m.gauge)
      (hcounters : m'.counters = Function.update m.counters source
        (Function.update (m.counters source) target (m.counters source target + 1)))
  | read (t : Option Ticket) (hl : l = .notifyState t)
      (hl' : l' = .notifyGauge m.cur.val.state t) (hsame : m' = m)
  | write (read : BreakerState) (t : Option Ticket) (hl : l = .notifyGauge read t)
      (hl' : l'.notifying = false) (hsame : m' = { m with gauge := read })

variable {b : Breaker} {i : Nat} {m m' : Shared} {l l' : Pc} {c c' : Pool Shared Pc} {s : Ptr}
  {state source target : BreakerState}

theorem toWrite_of_not_notifying (h : l.notifying = false) : l.toWrite state = false := by
  cases l <;> first | rfl | cases h

theorem uncounted_of_not_notifying (h : l.notifying = false) : l.uncounted source target = 0 := by
  cases l <;> first | rfl | cases h

theorem settled_iff : Settled c ↔ true ∉ c.threads.map Pc.notifying := by
  unfold Settled
  simp

theorem notifying_after (t : Option Ticket) : (Pc.after t).notifying = false := by
  cases t <;> rfl

theorem notified_same (hl : l.notifying = false) (hl' : l'.notifying = false) :
    Notified i m l l' m :=
  .none hl hl' rfl rfl rfl rfl

theorem allowOpen_notified (hk : b.Knows m (.allowOpen s))
    (h : b.step i (.allowOpen s) .go m = some (l', m')) :
    Notified i m (.allowOpen s) l' m' := by
  unfold Breaker.step at h
  dsimp only at h
  split at h
  · rename_i m₁ hswap
    cases h
    obtain ⟨rfl, rfl⟩ := swap_eq_some hk.1 hswap
    refine .change .open .halfOpen _ (m.cur.val.gen + 1) rfl rfl ?_ rfl
    simp only [hk.2.1]
  · cases h
    exact notified_same rfl rfl

theorem allowProbe_notified (hk : b.Knows m (.allowProbe s))
    (h : b.step i (.allowProbe s) .go m = some (l', m')) :
    Notified i m (.allowProbe s) l' m' := by
  unfold Breaker.step at h
  dsimp only at h
  split at h
  · rename_i m₁ hcas
    cases h
    obtain ⟨rfl, rfl⟩ := compareAndSwap_eq_some hk.1 hcas
    exact .none rfl rfl rfl rfl rfl rfl
  · cases h
    exact notified_same rfl rfl

theorem recordTrip_notified {t : Ticket} {failed : Bool} {now : Nat} {requests failures : Int}
    (hk : b.Knows m (.recordTrip t failed s now requests failures))
    (h : b.step i (.recordTrip t failed s now requests failures) .go m = some (l', m')) :
    Notified i m (.recordTrip t failed s now requests failures) l' m' := by
  unfold Breaker.step at h
  dsimp only at h
  split at h
  · split at h
    · rename_i m₁ hswap
      cases h
      obtain ⟨rfl, rfl⟩ := swap_eq_some hk.1 hswap
      refine .change .closed .open none (m.cur.val.gen + 1) rfl rfl ?_ rfl
      simp only [hk.2.1]
    · cases h
      exact notified_same rfl rfl
  · cases h
    exact notified_same rfl rfl

theorem probeSwap_notified {t : Ticket} {o : Outcome} {next : Snapshot}
    (hk : b.Knows m (.probeSwap t o s next))
    (h : b.step i (.probeSwap t o s next) .go m = some (l', m')) :
    Notified i m (.probeSwap t o s next) l' m' := by
  unfold Breaker.step at h
  dsimp only at h
  split at h
  · split at h
    · rename_i m₁ hswap
      cases h
      obtain ⟨rfl, rfl⟩ := swap_eq_some hk.1 hswap
      exact .change m.cur.val.state next.state none next.gen rfl rfl rfl rfl
    · cases h
      exact notified_same rfl rfl
  · rename_i hsame
    split at h
    · rename_i m₁ hcas
      cases h
      obtain ⟨rfl, rfl⟩ := compareAndSwap_eq_some hk.1 hcas
      exact .none rfl rfl (by simpa using hsame) rfl rfl rfl
    · cases h
      exact notified_same rfl rfl

/-- A step that loads or decides, and writes nothing. -/
theorem notified_of_pure {x : Choice} (h : b.step i l x m = some (l', m'))
    (hl : l = .allow ∨ (∃ s, l = .allowNow s) ∨ (∃ t, l = .held t) ∨ (∃ t f, l = .record t f) ∨
      ∃ t o, l = .probe t o) : Notified i m l l' m' := by
  rcases hl with rfl | ⟨s, rfl⟩ | ⟨t, rfl⟩ | ⟨t, f, rfl⟩ | ⟨t, o, rfl⟩
  all_goals
    cases x <;> simp only [Breaker.step, reduceCtorEq] at h
    repeat' split at h
    all_goals
      cases h
      exact notified_same rfl rfl

theorem notified_step {x : Choice} (hk : b.Knows m l) (h : b.step i l x m = some (l', m')) :
    Notified i m l l' m' := by
  cases l
  case allow | allowNow | held | record | probe => exact notified_of_pure h (by simp)
  all_goals cases x
  case allowOpen.go s => exact allowOpen_notified hk h
  case allowProbe.go s => exact allowProbe_notified hk h
  case recordTrip.go t failed s now requests failures => exact recordTrip_notified hk h
  case probeSwap.go t o s next => exact probeSwap_notified hk h
  all_goals cases h
  case recordNow.go | probeNow.go => exact notified_same rfl rfl
  case recordLock.go t failed s now => exact .none rfl rfl rfl rfl rfl rfl
  case notify.go source target t => exact .count source target t rfl rfl rfl rfl rfl rfl
  case notifyState.go t => exact .read t rfl rfl rfl
  case notifyGauge.go read t => exact .write read t rfl (notifying_after t) rfl

def Counted (c : Pool Shared Pc) : Prop :=
  ∀ source target, c.shared.counters source target + c.total (Pc.uncounted source target) =
    c.shared.transitions.countP (Transition.along source target)

theorem update_counter (counters : BreakerState → BreakerState → Nat)
    (s t source target : BreakerState) :
    Function.update counters s (Function.update (counters s) t (counters s t + 1)) source target =
      counters source target + if s = source ∧ t = target then 1 else 0 := by
  by_cases hs : source = s
  · subst hs
    by_cases ht : target = t
    · subst ht
      simp
    · simp [Function.update_of_ne ht, Ne.symm ht]
  · simp [Function.update_of_ne hs, Ne.symm hs]

theorem counted_step (hc : Counted c) (hi : c.threads[i]? = some l)
    (h : Notified i c.shared l l' m') : Counted ⟨m', c.threads.set i l'⟩ := by
  intro source target
  have hcount := hc source target
  have hset := Pool.total_set (s := m') (k := l') (f := Pc.uncounted source target) hi
  cases h with
  | none hl hl' _ htransitions hcounters =>
    rw [uncounted_of_not_notifying hl, uncounted_of_not_notifying hl'] at hset
    rw [hcounters, htransitions]
    omega
  | change s t ticket g hl hl' htransitions hcounters =>
    subst hl'
    rw [uncounted_of_not_notifying hl] at hset
    rw [hcounters, htransitions, countP_cons]
    simp only [Pc.uncounted] at hset
    simp only [Transition.along, decide_eq_true_eq] at hcount ⊢
    omega
  | count s t ticket hl hl' _ htransitions _ hcounters =>
    subst hl hl'
    rw [hcounters, htransitions, update_counter]
    simp only [Pc.uncounted] at hset
    omega
  | read t hl hl' hsame =>
    subst hl hl' hsame
    simp only [Pc.uncounted] at hset
    dsimp only
    omega
  | write read t hl hl' hsame =>
    subst hl hsame
    rw [uncounted_of_not_notifying hl'] at hset
    simp only [Pc.uncounted] at hset
    dsimp only
    omega

theorem counted_of_reachable (hc : b.requests.Reachable b.init c) : Counted c := by
  refine ReachableIf.induct hc (fun _ _ => rfl) ?_ ?_ ?_
  · intro c l _ hcounted hl source target
    obtain rfl : l = .allow := by simpa [Breaker.requests] using hl
    have hspawn := Pool.total_spawn (s := c.shared) (c := c) (l := .allow)
      (f := Pc.uncounted source target)
    have hcount := hcounted source target
    simp only [Pc.uncounted] at hspawn
    dsimp only
    omega
  · intro c i x l l' m hreach hcounted _ hl hstep
    exact counted_step hcounted hl (notified_step (knows_of_reachable hreach i l hl) hstep)
  · intro c d m _ hcounted _ henv
    cases henv
    exact hcounted

def Tracked (c : Pool Shared Pc) : Prop :=
  c.shared.gauge = c.shared.cur.val.state ∨ ∃ l ∈ c.threads, l.toWrite c.shared.cur.val.state

theorem exists_set {p : Pc → Prop} (hp : ∃ k ∈ c.threads, p k) (hi : c.threads[i]? = some l)
    (hl : p l → p l') : ∃ k ∈ c.threads.set i l', p k := by
  obtain ⟨k, hk, hpk⟩ := hp
  obtain ⟨j, hj⟩ := List.getElem?_of_mem hk
  by_cases hji : j = i
  · subst hji
    obtain rfl : k = l := some.inj (hj.symm.trans hi)
    exact ⟨l', mem_of_getElem? (Pool.set_self hi), hl hpk⟩
  · refine ⟨k, mem_of_getElem? (i := j) ?_, hpk⟩
    rw [List.getElem?_set_ne (Ne.symm hji), hj]

theorem tracked_step (hc : Tracked c) (hi : c.threads[i]? = some l)
    (hlast : writesLast c (.step i .go)) (h : Notified i c.shared l l' m') :
    Tracked ⟨m', c.threads.set i l'⟩ := by
  unfold Tracked at hc ⊢
  have hself : l' ∈ c.threads.set i l' := mem_of_getElem? (Pool.set_self hi)
  cases h with
  | none hl hl' hstate _ _ hgauge =>
    simp only [hstate, hgauge]
    refine hc.imp_right fun hw => exists_set hw hi fun hlw => ?_
    simp [toWrite_of_not_notifying hl] at hlw
  | change s t ticket g hl hl' => exact .inr ⟨l', hself, by rw [hl']; rfl⟩
  | count s t ticket hl hl' => exact .inr ⟨l', hself, by rw [hl']; rfl⟩
  | read t hl hl' hsame =>
    refine .inr ⟨l', hself, ?_⟩
    rw [hl', hsame]
    simp [Pc.toWrite]
  | write read t hl hl' hsame =>
    subst hl hsame
    simp only [writesLast, hi, Bool.or_eq_true, decide_eq_true_eq, List.any_eq_true] at hlast
    refine hlast.imp id fun hother => ?_
    -- the one who is still to write is another thread, and it has not moved
    obtain ⟨k, hk, hw⟩ := hother
    obtain ⟨j, hji, hj⟩ := mem_eraseIdx_iff_getElem?.mp hk
    refine ⟨k, mem_of_getElem? (i := j) ?_, hw⟩
    rw [List.getElem?_set_ne (Ne.symm hji), hj]

theorem tracked_of_reachable (hc : b.requests.ReachableIf (fun c a => writesLast c a) b.init c) :
    Tracked c := by
  refine ReachableIf.induct hc (.inl rfl) ?_ ?_ ?_
  · intro c l _ htracked _
    refine htracked.imp_right ?_
    rintro ⟨k, hk, hw⟩
    exact ⟨k, mem_append_left _ hk, hw⟩
  · intro c i x l l' m hreach htracked hok hl hstep
    have hknows := knows_of_reachable hreach.reachable i l hl
    cases x with
    | go => exact tracked_step htracked hl hok (notified_step hknows hstep)
    | finish o =>
      refine tracked_step htracked hl ?_ (notified_step hknows hstep)
      -- only a thread that holds a ticket reports an outcome
      cases l with
      | held t => simp [writesLast, hl]
      | _ => cases hstep
  · intro c d m _ htracked _ henv
    cases henv
    exact htracked

/-- The gauge is wrong and nobody is about to change that. -/
def Misled (c : Pool Shared Pc) : Prop :=
  c.shared.gauge ≠ c.shared.cur.val.state ∧
    ∀ l ∈ c.threads, l.toWrite c.shared.cur.val.state = false

variable {a : Act Pc Choice Nat}

theorem misled_of_not_writesLast (h : b.requests.next c a = some c') (ha : writesLast c a = false) :
    Misled c' := by
  obtain ⟨i, rfl⟩ : ∃ i, a = .step i .go := by
    cases a with
    | step i x =>
      cases x with
      | go => exact ⟨i, rfl⟩
      | finish o => cases ha
    | _ => cases ha
  simp only [writesLast] at ha
  split at ha
  · rename_i read t hi
    simp only [Bool.or_eq_false_iff, decide_eq_false_iff_not] at ha
    obtain ⟨hread, hothers⟩ := ha
    have hnext : c' = ⟨{ c.shared with gauge := read }, c.threads.set i (.after t)⟩ := by
      simp only [Threads.next, hi, Breaker.requests, Breaker.step, map_some] at h
      exact (some.inj h).symm
    rw [hnext]
    refine ⟨hread, fun k hk => ?_⟩
    obtain ⟨j, hj⟩ := List.getElem?_of_mem hk
    rcases Pool.set_cases hj with ⟨rfl, rfl⟩ | ⟨hji, hj⟩
    · exact toWrite_of_not_notifying (notifying_after t)
    · have hmem := mem_eraseIdx_iff_getElem?.mpr ⟨j, hji, hj⟩
      simpa using List.any_eq_false.mp hothers k hmem
  · cases ha

theorem misled_step (hc : Misled c) (hi : c.threads[i]? = some l)
    (h : Notified i c.shared l l' m') (hsame : m'.transitions = c.shared.transitions) :
    Misled ⟨m', c.threads.set i l'⟩ := by
  have hwrite := hc.2 l (mem_of_getElem? hi)
  have hothers : l'.notifying = false → ∀ k ∈ c.threads.set i l',
      k.toWrite c.shared.cur.val.state = false := by
    intro hl' k hk
    rcases mem_or_eq_of_mem_set hk with hk | rfl
    · exact hc.2 k hk
    · exact toWrite_of_not_notifying hl'
  cases h with
  | none _ hl' hstate _ _ hgauge =>
    unfold Misled
    simp only [hstate, hgauge]
    exact ⟨hc.1, hothers hl'⟩
  | change s t ticket g _ _ htransitions => simp [htransitions] at hsame
  | count s t ticket hl => simp [hl, Pc.toWrite] at hwrite
  | read t hl => simp [hl, Pc.toWrite] at hwrite
  | write read t hl hl' hsame =>
    subst hl hsame
    exact ⟨by simpa [Pc.toWrite] using hwrite, hothers hl'⟩

theorem transitions_next (hc : b.requests.Reachable b.init c) (h : b.requests.next c a = some c') :
    c'.shared.transitions = c.shared.transitions ∨
      ∃ x, c'.shared.transitions = x :: c.shared.transitions := by
  rcases next_cases h with ⟨l, rfl, -, rfl⟩ | ⟨i, x, l, l', m, rfl, hl, hstep, rfl⟩ |
    ⟨d, m, rfl, henv, rfl⟩
  · exact .inl rfl
  · cases notified_step (knows_of_reachable hc i l hl) hstep with
    | none _ _ _ htransitions => exact .inl htransitions
    | change s t ticket g _ _ htransitions => exact .inr ⟨_, htransitions⟩
    | count s t ticket _ _ _ htransitions => exact .inl htransitions
    | read t _ _ hsame => exact .inl (by rw [hsame])
    | write read t _ _ hsame => exact .inl (by rw [hsame])
  · cases henv
    exact .inl rfl

theorem misled_next (hreach : b.requests.Reachable b.init c) (hc : Misled c)
    (h : b.requests.next c a = some c') (hsame : c'.shared.transitions = c.shared.transitions) :
    Misled c' := by
  rcases next_cases h with ⟨l, rfl, hl, rfl⟩ | ⟨i, x, l, l', m, rfl, hl, hstep, rfl⟩ |
    ⟨d, m, rfl, henv, rfl⟩
  · obtain rfl : l = .allow := by simpa [Breaker.requests] using hl
    refine ⟨hc.1, fun k hk => ?_⟩
    rcases mem_append.mp hk with hk | hk
    · exact hc.2 k hk
    · obtain rfl : k = .allow := by simpa using hk
      rfl
  · exact misled_step hc hl (notified_step (knows_of_reachable hreach i l hl) hstep) hsame
  · cases henv
    exact hc

theorem length_transitions_run {as : List (Act Pc Choice Nat)}
    (hreach : b.requests.Reachable b.init c) (h : b.requests.run c as = some c') :
    c.shared.transitions.length ≤ c'.shared.transitions.length := by
  induction as generalizing c with
  | nil =>
    cases h
    exact le_refl _
  | cons a as ih =>
    obtain ⟨c₁, h₁, h₂⟩ := bind_eq_some_iff.mp h
    have hrest := ih (hreach.step h₁) h₂
    rcases transitions_next hreach h₁ with heq | ⟨x, heq⟩
    · rwa [heq] at hrest
    · rw [heq, length_cons] at hrest
      omega

/-- The run lemma: the gauge stays wrong until the next transition. -/
theorem misled_run {as : List (Act Pc Choice Nat)} (hreach : b.requests.Reachable b.init c)
    (hc : Misled c) (h : b.requests.run c as = some c')
    (hsame : c'.shared.transitions = c.shared.transitions) : Misled c' := by
  induction as generalizing c with
  | nil =>
    cases h
    exact hc
  | cons a as ih =>
    obtain ⟨c₁, h₁, h₂⟩ := bind_eq_some_iff.mp h
    have hreach₁ := hreach.step h₁
    have hnone : c₁.shared.transitions = c.shared.transitions := by
      refine (transitions_next hreach h₁).resolve_right ?_
      rintro ⟨x, heq⟩
      have hle := length_transitions_run hreach₁ h₂
      rw [hsame, heq, length_cons] at hle
      omega
    exact ih hreach₁ (misled_next hreach hc h₁ hnone) h₂ (hsame.trans hnone.symm)

/-- Whenever no notification is in progress the counters are the transitions made, in every
run; the gauge is the state in every run in which no notification writes a state that is no
longer the current one after all who are to write that one. A write that does makes the gauge
wrong until the next transition. -/
theorem gauge_tracks_state (b : Breaker) :
    (∀ c, b.requests.Reachable b.init c → Settled c → ∀ source target,
      c.shared.counters source target =
        c.shared.transitions.countP (Transition.along source target)) ∧
    (∀ c, b.requests.ReachableIf (fun c a => writesLast c a) b.init c → Settled c →
      c.shared.gauge = c.shared.cur.val.state) ∧
    ∀ c a c', b.requests.Reachable b.init c → b.requests.next c a = some c' →
      writesLast c a = false → ∀ as c'', b.requests.run c' as = some c'' →
      c''.shared.transitions = c'.shared.transitions →
      c''.shared.gauge ≠ c''.shared.cur.val.state := by
  refine ⟨fun c hc hsettled source target => ?_, fun c hc hsettled => ?_, ?_⟩
  · have hcount := counted_of_reachable hc source target
    have hnone : c.total (Pc.uncounted source target) = 0 :=
      Pool.total_eq_zero fun i l hl =>
        uncounted_of_not_notifying (hsettled l (mem_of_getElem? hl))
    omega
  · rcases tracked_of_reachable hc with hgauge | ⟨l, hl, hwrite⟩
    · exact hgauge
    · rw [toWrite_of_not_notifying (hsettled l hl)] at hwrite
      cases hwrite
  · intro c a c' hc hnext hnot as c'' hrun hsame
    have hmisled := misled_of_not_writesLast hnext hnot
    exact (misled_run (hc.step hnext) hmisled hrun hsame).1

/-- A failure opens the breaker, and after its timeout a probe is admitted. Each notification
is over before the next transition. -/
def tripped : List (Act Pc Choice Nat) :=
  [.spawn .allow, .step 0 .go, .step 0 (.finish .failure), .step 0 .go, .step 0 .go, .step 0 .go,
    .step 0 .go, .step 0 .go, .step 0 .go, .step 0 .go, .env 5,
    .spawn .allow, .step 1 .go, .step 1 .go, .step 1 .go, .step 1 .go, .step 1 .go, .step 1 .go]

theorem gauge_tracks_state_tripped :
    ∃ c, oneProbe.requests.runIf writesLast ⟨oneProbe.init, []⟩ tripped = some c ∧
      c.shared.cur.val.state = .halfOpen ∧ c.shared.gauge = .halfOpen ∧
      c.shared.counters .open .halfOpen = 1 := by
  obtain ⟨c, hrun, hstate, hthreads, hcount⟩ :
      ∃ c, oneProbe.requests.runIf writesLast ⟨oneProbe.init, []⟩ tripped = some c ∧
        c.shared.cur.val.state = .halfOpen ∧ c.threads.map Pc.notifying = [false, false] ∧
        c.shared.transitions.countP (Transition.along .open .halfOpen) = 1 :=
    ⟨_, rfl, rfl, rfl, rfl⟩
  have hc := ReachableIf.runIf (T := oneProbe.requests) .init hrun
  have hsettled : Settled c := by
    rw [settled_iff, hthreads]
    decide
  obtain ⟨hcounters, hgauge, -⟩ := gauge_tracks_state oneProbe
  refine ⟨c, hrun, hstate, (hgauge c hc hsettled).trans hstate, ?_⟩
  rw [hcounters c hc.reachable hsettled, hcount]

/-- The notification of the first transition reads the state and stalls. A probe is admitted
and its notification ends before the first one writes. -/
def overtaken : List (Act Pc Choice Nat) :=
  [.spawn .allow, .step 0 .go, .step 0 (.finish .failure), .step 0 .go, .step 0 .go, .step 0 .go,
    .step 0 .go, .step 0 .go, .step 0 .go, .env 5,
    .spawn .allow, .step 1 .go, .step 1 .go, .step 1 .go, .step 1 .go, .step 1 .go, .step 1 .go,
    .step 0 .go]

theorem overtaken_leaves_open :
    ∃ c, oneProbe.requests.run ⟨oneProbe.init, []⟩ overtaken = some c ∧ Settled c ∧
      c.shared.cur.val.state = .halfOpen ∧ c.shared.gauge = .open := by
  exact ⟨_, rfl, settled_iff.mpr (by decide), rfl, rfl⟩

end GolangBasics.Resilient
