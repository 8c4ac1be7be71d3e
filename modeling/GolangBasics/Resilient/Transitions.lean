import GolangBasics.Resilient.Probes
import Mathlib.Data.List.Nodup

/-! The state changes of the breaker against the record of what its probes told it. -/
namespace GolangBasics.Resilient
open Conc Threads List Option

def BreakerState.Leads : BreakerState → BreakerState → Prop
  | .closed, .open | .open, .halfOpen | .halfOpen, .closed | .halfOpen, .open => True
  | _, _ => False

def succeeded (vs : List Verdict) (g : Nat) : List Nat :=
  (vs.filter fun v => v.gen = g ∧ v.outcome = .success).map Verdict.thread

def Unfailed (vs : List Verdict) (g : Nat) : Prop := ∀ v ∈ vs, v.gen = g → v.outcome ≠ .failure

structure Recorded (m : Shared) : Prop where
  upTo : ∀ v ∈ m.verdicts, v.gen ≤ m.cur.val.gen
  ended : m.cur.val.state ≠ .halfOpen → ∀ v ∈ m.verdicts, v.gen ≠ m.cur.val.gen
  unfailed : m.cur.val.state = .halfOpen → Unfailed m.verdicts m.cur.val.gen
  successes : m.cur.val.state = .halfOpen →
    m.cur.val.successes = (succeeded m.verdicts m.cur.val.gen).length
  once : ∀ g, m.transitions.countP (·.gen = g) = if 1 ≤ g ∧ g ≤ m.cur.val.gen then 1 else 0

/-- Every verdict is of a thread of its own, which is past its `record`. -/
structure Distinct (c : Pool Shared Pc) : Prop where
  finished : ∀ v ∈ c.shared.verdicts, ∃ l, c.threads[v.thread]? = some l ∧ l.finished
  nodup : (c.shared.verdicts.map Verdict.thread).Nodup

variable {b : Breaker} {i : Nat} {m m' : Shared} {l l' : Pc} {c c' : Pool Shared Pc}

theorem Effect.leads (h : Effect b i m l l' m') :
    m'.cur.val.state = m.cur.val.state ∧ m'.cur.val.gen = m.cur.val.gen ∨
      m'.cur.val.gen = m.cur.val.gen + 1 ∧ m.cur.val.state.Leads m'.cur.val.state := by
  cases h with
  | quiet hcur => exact .inl (by rw [hcur]; exact ⟨rfl, rfl⟩)
  | issue _ hsame | drop _ hsame => exact .inl (by rw [hsame]; exact ⟨rfl, rfl⟩)
  | take _ _ hcur => exact .inl (by rw [hcur]; exact ⟨rfl, rfl⟩)
  | enter hstate _ hcur => exact .inr (by rw [hcur, hstate]; exact ⟨rfl, trivial⟩)
  | trip _ hstate hcur => exact .inr (by rw [hcur, hstate]; exact ⟨rfl, trivial⟩)
  | count o hstate ho hcur => exact .inl (by rw [hcur]; exact settle_same ho)
  | decide o next hstate ho hgen hcur =>
    right
    rw [hcur, hstate]
    rcases ho with ⟨-, -, hnext⟩ | ⟨-, hnext⟩
    · exact ⟨hgen, by rw [hnext]; trivial⟩
    · exact ⟨hgen, by rw [hnext]; trivial⟩

theorem countP_cons_gen (t : Transition) (ts : List Transition) {n : Nat} (hgen : t.gen = n + 1)
    (h : ∀ g, ts.countP (·.gen = g) = if 1 ≤ g ∧ g ≤ n then 1 else 0) (g : Nat) :
    (t :: ts).countP (·.gen = g) = if 1 ≤ g ∧ g ≤ n + 1 then 1 else 0 := by
  rw [countP_cons, h g, hgen]
  by_cases hg : g = n + 1
  · subst hg
    simp
  · have hne : ¬(n + 1 = g) := fun h => hg h.symm
    simp only [hne, decide_false, Bool.false_eq_true, if_false, Nat.add_zero]
    congr 1
    simp only [eq_iff_iff]
    omega

theorem Recorded.next (hm : Recorded m) {t : Transition} (ht : t.gen = m.cur.val.gen + 1)
    (hgen : m'.cur.val.gen = m.cur.val.gen + 1)
    (hsuccesses : m'.cur.val.state = .halfOpen → m'.cur.val.successes = 0)
    (hverdicts : ∀ v ∈ m'.verdicts, v.gen ≤ m.cur.val.gen)
    (htransitions : m'.transitions = t :: m.transitions) : Recorded m' := by
  have hnew : ∀ v ∈ m'.verdicts, v.gen ≠ m'.cur.val.gen := by
    intro v hv
    have hle := hverdicts v hv
    omega
  constructor
  · intro v hv
    have hle := hverdicts v hv
    omega
  · exact fun _ => hnew
  · exact fun _ v hv hg => absurd hg (hnew v hv)
  · intro hhalf
    have hnone : succeeded m'.verdicts m'.cur.val.gen = [] := by
      simp only [succeeded, map_eq_nil_iff, filter_eq_nil_iff]
      intro v hv
      simp [hnew v hv]
    simp [hnone, hsuccesses hhalf]
  · rw [htransitions, hgen]
    exact countP_cons_gen _ _ ht hm.once

theorem Recorded.same (hm : Recorded m) (hstate : m'.cur.val.state = m.cur.val.state)
    (hgen : m'.cur.val.gen = m.cur.val.gen)
    (hsuccesses : m'.cur.val.successes = m.cur.val.successes)
    (hverdicts : m'.verdicts = m.verdicts) (htransitions : m'.transitions = m.transitions) :
    Recorded m' := by
  constructor
  all_goals simp only [hstate, hgen, hsuccesses, hverdicts, htransitions]
  exacts [hm.upTo, hm.ended, hm.unfailed, hm.successes, hm.once]

theorem Recorded.count (hm : Recorded m) {o : Outcome} (hstate : m.cur.val.state = .halfOpen)
    (ho : o = .ignored ∨ o = .success ∧ m.cur.val.successes + 1 < b.maxProbes)
    (hcur : m'.cur.val = b.settle o m.cur.val)
    (hverdicts : m'.verdicts = ⟨i, m.cur.val.gen, o⟩ :: m.verdicts)
    (htransitions : m'.transitions = m.transitions) : Recorded m' := by
  obtain ⟨hsame, hgen⟩ := settle_same ho
  have hhalf := hsame.trans hstate
  constructor
  all_goals simp only [hcur, hverdicts, htransitions, hgen, hhalf]
  · intro v hv
    rcases mem_cons.mp hv with rfl | hv
    · exact le_refl _
    · exact hm.upTo v hv
  · exact fun h => absurd rfl h
  · intro _ v hv hg
    rcases mem_cons.mp hv with rfl | hv
    · rcases ho with rfl | ⟨rfl, -⟩ <;> simp
    · exact hm.unfailed hstate v hv hg
  · intro _
    have hsucc := hm.successes hstate
    rcases ho with rfl | ⟨rfl, hlast⟩
    · simpa [succeeded, Breaker.settle] using hsucc
    · rw [settle_success hlast]
      simp only [succeeded, length_map] at hsucc ⊢
      simp [hsucc]
  · exact hm.once

theorem recorded_step (hm : Recorded m) (h : Effect b i m l l' m') : Recorded m' := by
  cases h with
  | quiet hcur hverdicts htransitions =>
    exact hm.same (by rw [hcur]) (by rw [hcur]) (by rw [hcur]) hverdicts htransitions
  | issue _ hsame => rwa [hsame]
  | drop _ hsame => rwa [hsame]
  | take _ _ hcur hverdicts htransitions =>
    exact hm.same (by rw [hcur]) (by rw [hcur]) (by rw [hcur]) hverdicts htransitions
  | enter _ _ hcur hverdicts htransitions | trip _ _ hcur hverdicts htransitions =>
    refine hm.next rfl (by rw [hcur]) (fun _ => by rw [hcur]) ?_ htransitions
    rw [hverdicts]
    exact hm.upTo
  | count o hstate ho hcur hverdicts htransitions =>
    exact hm.count hstate ho (by rw [hcur]) hverdicts htransitions
  | decide o next _ ho hgen hcur hverdicts htransitions =>
    refine hm.next rfl (by rw [hcur, hgen]) ?_ ?_ htransitions
    · rw [hcur]
      rcases ho with ⟨-, -, hnext⟩ | ⟨-, hnext⟩ <;> simp [hnext]
    · rw [hverdicts]
      intro v hv
      rcases mem_cons.mp hv with rfl | hv
      · exact le_refl _
      · exact hm.upTo v hv

theorem Effect.finished (h : Effect b i m l l' m') (hl : l.finished) : l'.finished := by
  cases h with
  | quiet _ _ _ _ hfinished => exact hfinished hl
  | drop _ _ _ _ _ hfinished => exact hfinished
  | issue _ _ _ _ hfinished => simp [hfinished] at hl
  | enter _ _ _ _ _ _ _ hfinished | take _ _ _ _ _ _ _ hfinished => simp [hfinished] at hl
  | count _ _ _ _ _ _ _ _ hfinished | trip _ _ _ _ _ _ _ hfinished => simp [hfinished] at hl
  | decide _ _ _ _ _ _ _ _ _ _ hfinished => simp [hfinished] at hl

/-- A step adds at most the verdict of its own thread, which then is past its `record`. -/
theorem Effect.verdicts (h : Effect b i m l l' m') : m'.verdicts = m.verdicts ∨
    ∃ o, m'.verdicts = ⟨i, m.cur.val.gen, o⟩ :: m.verdicts ∧ l.finished = false ∧ l'.finished := by
  cases h with
  | quiet _ hverdicts => exact .inl hverdicts
  | issue _ hsame | drop _ hsame => exact .inl (by rw [hsame])
  | enter _ _ _ hverdicts | take _ _ _ hverdicts | trip _ _ _ hverdicts => exact .inl hverdicts
  | count o _ _ _ hverdicts _ _ _ hfinished hfinished' =>
    exact .inr ⟨o, hverdicts, hfinished, hfinished'⟩
  | decide o _ _ _ _ _ hverdicts _ _ _ hfinished hfinished' =>
    exact .inr ⟨o, hverdicts, hfinished, hfinished'⟩

theorem distinct_step (hc : Distinct c) (hl : c.threads[i]? = some l)
    (h : Effect b i c.shared l l' m') : Distinct ⟨m', c.threads.set i l'⟩ := by
  have hself : (c.threads.set i l')[i]? = some l' := Pool.set_self hl
  have hkeep : ∀ v ∈ c.shared.verdicts,
      ∃ x, (c.threads.set i l')[v.thread]? = some x ∧ x.finished := by
    intro v hv
    obtain ⟨x, hx, hfinished⟩ := hc.finished v hv
    by_cases hi : v.thread = i
    · have hxl : x = l := some.inj (hx.symm.trans (by rw [hi]; exact hl))
      rw [hi]
      exact ⟨l', hself, h.finished (hxl ▸ hfinished)⟩
    · refine ⟨x, ?_, hfinished⟩
      rwa [List.getElem?_set_ne (Ne.symm hi)]
  rcases h.verdicts with hsame | ⟨o, hverdicts, hfinished, hfinished'⟩
  · constructor
    · simpa only [hsame] using hkeep
    · simpa only [hsame] using hc.nodup
  · constructor
    · simp only [hverdicts]
      intro v hv
      rcases mem_cons.mp hv with rfl | hv
      · exact ⟨l', hself, hfinished'⟩
      · exact hkeep v hv
    · simp only [hverdicts, map_cons, nodup_cons]
      refine ⟨fun hin => ?_, hc.nodup⟩
      -- the thread would be past its `record` already
      obtain ⟨v, hv, hthread⟩ := List.mem_map.mp hin
      obtain ⟨x, hx, hdone⟩ := hc.finished v hv
      have hxl : x = l := some.inj (hx.symm.trans (by rw [hthread]; exact hl))
      simp [← hxl, hdone] at hfinished

theorem recorded_init : Recorded b.init := by
  constructor <;> simp [Breaker.init]
  intro g h₁ h₂
  omega

theorem distinct_init : Distinct ⟨b.init, []⟩ := by
  constructor <;> simp [Breaker.init]

theorem recorded_of_reachable (hc : b.requests.Reachable b.init c) :
    Pool.Each (fun _ => b.Knows) c ∧ Recorded c.shared ∧ Distinct c := by
  refine ReachableIf.invariant (I := fun c =>
    Pool.Each (fun _ => b.Knows) c ∧ Recorded c.shared ∧ Distinct c) hc
    ⟨by simp [Pool.Each], recorded_init, distinct_init⟩ ?_ ?_ ?_
  · rintro c l ⟨hknows, hrec, hdist⟩ hl
    obtain rfl : l = .allow := by simpa [Breaker.requests] using hl
    refine ⟨Pool.each_spawn hknows trivial, hrec, fun v hv => ?_, hdist.nodup⟩
    obtain ⟨x, hx, hfinished⟩ := hdist.finished v hv
    have hlt := (List.getElem?_eq_some_iff.mp hx).1
    exact ⟨x, by rw [List.getElem?_append_left hlt]; exact hx, hfinished⟩
  · rintro c i x l l' m ⟨hknows, hrec, hdist⟩ _ hl hstep
    have hspec := step_spec (hknows i l hl) hstep
    exact ⟨knows_step hknows hspec, recorded_step hrec hspec.effect,
      distinct_step hdist hl hspec.effect⟩
  · rintro c d m ⟨hknows, hrec, hdist⟩ _ henv
    cases henv
    have hgrows : Grows c.shared { c.shared with clock := c.shared.clock + d } :=
      ⟨Nat.le_add_right _ _, .inl rfl⟩
    refine ⟨Pool.each_env hknows fun _ _ hk => hk.grows hgrows, ?_, ?_⟩
    · exact ⟨hrec.upTo, hrec.ended, hrec.unfailed, hrec.successes, hrec.once⟩
    · exact ⟨hdist.finished, hdist.nodup⟩

/-- A step of the system is the effect of one thread's step, or leaves the breaker and every
thread as they are. -/
theorem next_effect (hc : Pool.Each (fun _ => b.Knows) c) {a : Act Pc Choice Nat}
    (h : b.requests.next c a = some c') :
    (∃ i x l l', a = .step i x ∧ c.threads[i]? = some l ∧ c'.threads = c.threads.set i l' ∧
      Effect b i c.shared l l' c'.shared) ∨
    (∀ i x, a ≠ .step i x) ∧ c'.shared.cur = c.shared.cur ∧
      c'.shared.verdicts = c.shared.verdicts ∧ c.threads <+: c'.threads := by
  rcases next_cases h with ⟨l, rfl, -, rfl⟩ | ⟨i, x, l, l', m, rfl, hl, hstep, rfl⟩ |
    ⟨d, m, rfl, henv, rfl⟩
  · exact .inr ⟨by simp, rfl, rfl, prefix_append _ _⟩
  · exact .inl ⟨i, x, l, l', rfl, hl, rfl, (step_spec (hc i l hl) hstep).effect⟩
  · cases henv
    exact .inr ⟨by simp, rfl, rfl, prefix_refl _⟩

theorem Effect.closes (hc : Inv b c) (hrec : Recorded c.shared) (hdist : Distinct ⟨m', c'.threads⟩)
    (h : Effect b i c.shared l l' m') (hhalf : c.shared.cur.val.state = .halfOpen)
    (hclosed : m'.cur.val.state = .closed) :
    (succeeded m'.verdicts c.shared.cur.val.gen).Nodup ∧
      ((succeeded m'.verdicts c.shared.cur.val.gen).length : Int) = b.maxProbes ∧
      Unfailed m'.verdicts c.shared.cur.val.gen := by
  have hnodup : (succeeded m'.verdicts c.shared.cur.val.gen).Nodup :=
    hdist.nodup.sublist (filter_sublist.map _)
  have hfew := (hc.slots hhalf).few
  have hsucc := hrec.successes hhalf
  have hunfailed := hrec.unfailed hhalf
  refine ⟨hnodup, ?_⟩
  cases h with
  | quiet hcur => simp [hcur, hhalf] at hclosed
  | issue _ hsame | drop _ hsame => simp [hsame, hhalf] at hclosed
  | enter hstate | trip _ hstate => simp [hhalf] at hstate
  | take _ _ hcur => simp [hcur, hhalf] at hclosed
  | count o _ ho hcur =>
    rw [hcur] at hclosed
    simp [settle_same ho, hhalf] at hclosed
  | decide o next _ ho _ hcur hverdicts =>
    rw [hcur] at hclosed
    rcases ho with ⟨rfl, hlast, -⟩ | ⟨-, hopen⟩
    · rw [hverdicts]
      constructor
      · simp only [succeeded, length_map] at hsucc ⊢
        simp only [and_self, decide_true, filter_cons_of_pos, length_cons]
        omega
      · intro v hv hg
        rcases mem_cons.mp hv with rfl | hv
        · simp
        · exact hunfailed v hv hg
    · simp [hopen] at hclosed

theorem Effect.fails (hrec : Recorded m) (h : Effect b i m l l' m') {v : Verdict}
    (hv : m'.verdicts = v :: m.verdicts) (hfail : v.outcome = .failure) :
    m.cur.val.state = .halfOpen ∧ v.gen = m.cur.val.gen ∧ Unfailed m.verdicts m.cur.val.gen ∧
      m'.cur.val.state = .open := by
  cases h with
  | quiet _ hverdicts | enter _ _ _ hverdicts | take _ _ _ hverdicts | trip _ _ _ hverdicts =>
    simp [hverdicts] at hv
  | issue _ hsame | drop _ hsame => simp [hsame] at hv
  | count o _ ho _ hverdicts =>
    rw [hverdicts] at hv
    obtain ⟨rfl, -⟩ := List.cons.inj hv
    rcases ho with rfl | ⟨rfl, -⟩ <;> cases hfail
  | decide o next hstate ho _ hcur hverdicts =>
    rw [hverdicts] at hv
    obtain ⟨rfl, -⟩ := List.cons.inj hv
    rcases ho with ⟨rfl, -⟩ | ⟨-, hopen⟩
    · cases hfail
    · exact ⟨hstate, rfl, hrec.unfailed hstate, by rw [hcur]; exact hopen⟩

theorem Effect.reopens (h : Effect b i m l l' m') (hhalf : m.cur.val.state = .halfOpen)
    (hopen : m'.cur.val.state = .open) :
    m'.verdicts = ⟨i, m.cur.val.gen, .failure⟩ :: m.verdicts := by
  cases h with
  | quiet hcur => simp [hcur, hhalf] at hopen
  | issue _ hsame | drop _ hsame => simp [hsame, hhalf] at hopen
  | enter hstate | trip _ hstate => simp [hhalf] at hstate
  | take _ _ hcur => simp [hcur, hhalf] at hopen
  | count o _ ho hcur =>
    rw [hcur] at hopen
    simp [settle_same ho, hhalf] at hopen
  | decide o next _ ho _ hcur hverdicts =>
    rw [hcur] at hopen
    rcases ho with ⟨-, -, hnext⟩ | ⟨rfl, -⟩
    · simp [hnext] at hopen
    · exact hverdicts

theorem Effect.admits (h : Effect b i m l l' m') (hopen : m.cur.val.state = .open) {t : Ticket}
    (hl : l.ticket = none) (hl' : l'.ticket = some t) :
    m'.cur.val.state = .halfOpen ∧ m.cur.val.openedAt + b.openTimeout ≤ m.clock := by
  cases h with
  | quiet _ _ _ hticket => simp [hticket, hl] at hl'
  | drop _ _ hticket => simp [hl] at hticket
  | count _ _ _ _ _ _ hticket | trip _ _ _ _ _ hticket => simp [hl] at hticket
  | decide _ _ _ _ _ _ _ _ hticket => simp [hl] at hticket
  | issue hstate | take hstate => simp [hopen] at hstate
  | enter _ htime hcur => exact ⟨by rw [hcur], htime⟩

theorem Effect.enters (h : Effect b i m l l' m') (hopen : m.cur.val.state = .open)
    (hhalf : m'.cur.val.state = .halfOpen) :
    l'.ticket = some ⟨m'.cur.val.gen, true⟩ ∧
      m.cur.val.openedAt + b.openTimeout ≤ m.clock := by
  cases h with
  | quiet hcur => simp [hcur, hopen] at hhalf
  | issue _ hsame | drop _ hsame => simp [hsame, hopen] at hhalf
  | take hstate | count _ hstate | decide _ _ hstate | trip _ hstate => simp [hopen] at hstate
  | enter _ htime hcur _ _ _ hticket' => exact ⟨by rw [hticket', hcur], htime⟩

theorem Effect.stale (h : Effect b i m l l' m') {t : Ticket} (hl : l.ticket = some t)
    (hold : t.gen < m.cur.val.gen) : m'.cur = m.cur := by
  have hne : ∀ p, l.ticket ≠ some ⟨m.cur.val.gen, p⟩ := by
    intro p hp
    obtain rfl : t = ⟨m.cur.val.gen, p⟩ := some.inj (hl.symm.trans hp)
    simp at hold
  cases h with
  | quiet hcur => exact hcur
  | issue _ hsame | drop _ hsame => rw [hsame]
  | enter _ _ _ _ _ hticket | take _ _ _ _ _ hticket => simp [hl] at hticket
  | count _ _ _ _ _ _ hticket | trip _ _ _ _ _ hticket => exact absurd hticket (hne _)
  | decide _ _ _ _ _ _ _ _ hticket => exact absurd hticket (hne _)

structure Lawful (b : Breaker) (c : Pool Shared Pc) (a : Act Pc Choice Nat)
    (c' : Pool Shared Pc) : Prop where
  /-- The generation counts the state changes, and there are four kinds of them. -/
  leads : c'.shared.cur.val.state = c.shared.cur.val.state ∧
      c'.shared.cur.val.gen = c.shared.cur.val.gen ∨
    c'.shared.cur.val.gen = c.shared.cur.val.gen + 1 ∧
      c.shared.cur.val.state.Leads c'.shared.cur.val.state
  /-- Closing takes `maxProbes` successes of distinct probes and no failure. -/
  closes : c.shared.cur.val.state = .halfOpen → c'.shared.cur.val.state = .closed →
    (succeeded c'.shared.verdicts c.shared.cur.val.gen).Nodup ∧
    ((succeeded c'.shared.verdicts c.shared.cur.val.gen).length : Int) = b.maxProbes ∧
    Unfailed c'.shared.verdicts c.shared.cur.val.gen
  /-- A failure that is recorded is the first of its generation and opens the breaker again. -/
  fails : ∀ v, c'.shared.verdicts = v :: c.shared.verdicts → v.outcome = .failure →
    c.shared.cur.val.state = .halfOpen ∧ v.gen = c.shared.cur.val.gen ∧
    Unfailed c.shared.verdicts c.shared.cur.val.gen ∧ c'.shared.cur.val.state = .open
  /-- Only a recorded failure does. -/
  reopens : c.shared.cur.val.state = .halfOpen → c'.shared.cur.val.state = .open →
    ∃ i, c'.shared.verdicts = ⟨i, c.shared.cur.val.gen, .failure⟩ :: c.shared.verdicts
  /-- An open breaker admits nothing until `openTimeout` after `openedAt`. -/
  admits : c.shared.cur.val.state = .open → ∀ (i : Nat) (l l' : Pc) (t : Ticket),
    c.threads[i]? = some l → c'.threads[i]? = some l' → l.ticket = none → l'.ticket = some t →
    c'.shared.cur.val.state = .halfOpen ∧
    c.shared.cur.val.openedAt + b.openTimeout ≤ c.shared.clock
  /-- The move to half-open is the step of one caller, who takes the first probe. -/
  enters : c.shared.cur.val.state = .open → c'.shared.cur.val.state = .halfOpen →
    ∃ (i : Nat) (x : Choice) (l' : Pc), a = .step i x ∧ c'.threads[i]? = some l' ∧
      l'.ticket = some ⟨c'.shared.cur.val.gen, true⟩ ∧
      c.shared.cur.val.openedAt + b.openTimeout ≤ c.shared.clock
  /-- Every generation was begun by exactly one step. -/
  once : ∀ g, 1 ≤ g → g ≤ c'.shared.cur.val.gen →
    c'.shared.transitions.countP (·.gen = g) = 1
  /-- The ticket of an earlier generation changes nothing. -/
  stale : ∀ (i : Nat) (x : Choice) (l : Pc) (t : Ticket), a = .step i x →
    c.threads[i]? = some l → l.ticket = some t → t.gen < c.shared.cur.val.gen →
    c'.shared.cur = c.shared.cur

theorem lawful_of_effect (hc : Inv b c) (hrec : Recorded c.shared) (hrec' : Recorded c'.shared)
    (hdist' : Distinct c') {x : Choice} (hl : c.threads[i]? = some l)
    (hthreads : c'.threads = c.threads.set i l') (h : Effect b i c.shared l l' c'.shared) :
    Lawful b c (.step i x) c' where
  leads := h.leads
  closes := h.closes hc hrec hdist'
  fails _ hv hfail := h.fails hrec hv hfail
  reopens hhalf hopen := ⟨i, h.reopens hhalf hopen⟩
  admits hopen j m m' t hj hj' hm hm' := by
    by_cases hji : j = i
    · subst hji
      have hself : (c.threads.set j l')[j]? = some l' := Pool.set_self hl
      obtain rfl : l = m := some.inj (hl.symm.trans hj)
      obtain rfl : l' = m' := some.inj (hself.symm.trans (hthreads ▸ hj'))
      exact h.admits hopen hm hm'
    · rw [hthreads, List.getElem?_set_ne (Ne.symm hji)] at hj'
      obtain rfl : m = m' := some.inj (hj.symm.trans hj')
      simp [hm] at hm'
  enters hopen hhalf := by
    have henters := h.enters hopen hhalf
    exact ⟨i, x, l', rfl, by rw [hthreads]; exact Pool.set_self hl, henters⟩
  once g h₁ h₂ := by rw [hrec'.once g, if_pos ⟨h₁, h₂⟩]
  stale j y m t ha hj hm hold := by
    cases ha
    obtain rfl : l = m := some.inj (hl.symm.trans hj)
    exact h.stale hm hold

theorem lawful_of_same (hrec' : Recorded c'.shared) {a : Act Pc Choice Nat}
    (ha : ∀ i x, a ≠ .step i x) (hcur : c'.shared.cur = c.shared.cur)
    (hverdicts : c'.shared.verdicts = c.shared.verdicts) (hthreads : c.threads <+: c'.threads) :
    Lawful b c a c' where
  leads := .inl (by rw [hcur]; exact ⟨rfl, rfl⟩)
  closes hhalf hclosed := by simp [hcur, hhalf] at hclosed
  fails v hv := by simp [hverdicts] at hv
  reopens hhalf hopen := by simp [hcur, hhalf] at hopen
  admits _ i l l' t hl hl' hticket hticket' := by
    have hsame : c'.threads[i]? = some l := by
      obtain ⟨ts, hts⟩ := hthreads
      have hlt := (List.getElem?_eq_some_iff.mp hl).1
      rw [← hts, List.getElem?_append_left hlt]
      exact hl
    obtain rfl : l = l' := some.inj (hsame.symm.trans hl')
    simp [hticket] at hticket'
  enters hopen hhalf := by simp [hcur, hopen] at hhalf
  once g h₁ h₂ := by rw [hrec'.once g, if_pos ⟨h₁, h₂⟩]
  stale i x _ _ h := absurd h (ha i x)

/-- No probe is in flight in a generation that is not half-open. -/
theorem inFlight_eq_zero (hmax : 1 ≤ b.maxProbes) (hc : b.requests.Reachable b.init c) :
    c.shared.cur.val.state ≠ .halfOpen → inFlight c c.shared.cur.val.gen = 0 := by
  refine ReachableIf.induct (I := fun c => c.shared.cur.val.state ≠ .halfOpen →
    inFlight c c.shared.cur.val.gen = 0) hc (fun _ => rfl) ?_ ?_ ?_
  · intro c l _ ih hl hstate
    obtain rfl : l = .allow := by simpa [Breaker.requests] using hl
    exact Pool.total_spawn.trans (ih hstate)
  · intro c i x l l' m hc ih _ hl hstep hstate
    have hknows := (inv_of_reachable hmax hc).knows
    have heffect := (step_spec (hknows i l hl) hstep).effect
    have hset := inFlight_set hl m l' m.cur.val.gen
    have hzero : inFlight c m.cur.val.gen = 0 := by
      rcases heffect.leads with ⟨hsame, hgen⟩ | ⟨hgen, -⟩
      · rw [hgen]
        exact ih (hsame ▸ hstate)
      · exact inFlight_of_lt hknows (by omega)
    rcases heffect.probing with hless | ⟨-, -, -, hhalf, -⟩
    · have hle := hless m.cur.val.gen
      simp only
      omega
    · exact absurd hhalf hstate
  · intro c d m _ ih _ henv
    cases henv
    exact ih

/-- Where thread `i` is whose probe finished with `o`, and what it has told once it returned. -/
inductive Tells (i : Nat) (t : Ticket) (o : Outcome) (m : Shared) : Pc → Prop where
  | loads : Tells i t o m (.probe t o)
  | reads (s : Ptr) (ho : o = .failure) : Tells i t o m (.probeNow t s)
  | swaps (s : Ptr) (next : Snapshot) : Tells i t o m (.probeSwap t o s next)
  | told {l : Pc} (hl : l.finished) (h : ⟨i, t.gen, o⟩ ∈ m.verdicts ∨ t.gen < m.cur.val.gen) :
      Tells i t o m l

variable {t : Ticket} {o : Outcome}

theorem Tells.grows (h : Tells i t o m l) (hverdicts : m.verdicts ⊆ m'.verdicts)
    (hgen : m.cur.val.gen ≤ m'.cur.val.gen) : Tells i t o m' l := by
  cases h with
  | loads => exact .loads
  | reads s ho => exact .reads s ho
  | swaps s next => exact .swaps s next
  | told hl h => exact .told hl (h.imp (fun hv => hverdicts hv) fun hover => by omega)

theorem Stepped.kept {i : Nat} (h : Stepped b i m l l' m') :
    m.verdicts ⊆ m'.verdicts ∧ m.cur.val.gen ≤ m'.cur.val.gen := by
  refine ⟨?_, (h.effect.grows h.clock).gen⟩
  rcases h.effect.verdicts with hsame | ⟨o, hmore, -⟩
  · rw [hsame]
    exact List.Subset.refl _
  · rw [hmore]
    exact subset_cons_self _ _

/-- The thread's own step. It lets go of its ticket only if the generation is over. -/
theorem Tells.step {x : Choice} (h : Tells i t o m l) (hspec : Stepped b i m l l' m')
    (hover : l.ticket = some t → m.cur.val.state ≠ .halfOpen ∨ m.cur.val.gen ≠ t.gen →
      t.gen < m.cur.val.gen) (hstep : b.step i l x m = some (l', m')) : Tells i t o m' l' := by
  cases h with
  | told hl h =>
    obtain ⟨hverdicts, hgen⟩ := hspec.kept
    exact Tells.grows (.told (hspec.effect.finished hl) h) hverdicts hgen
  | loads =>
    cases x <;> simp only [Breaker.step, reduceCtorEq] at hstep
    split at hstep
    · cases hstep
      exact .told rfl (.inr (hover rfl ‹_›))
    · cases o <;> cases hstep
      exacts [.swaps _ _, .reads _ rfl, .swaps _ _]
  | reads s ho =>
    cases x <;> cases hstep
    subst ho
    exact .swaps _ _
  | swaps s next =>
    cases x <;> simp only [Breaker.step, reduceCtorEq] at hstep
    split at hstep <;> split at hstep <;> cases hstep
    exacts [.told rfl (.inl mem_cons_self), .loads, .told rfl (.inl mem_cons_self),
      .loads]

theorem tells_next (hmax : 1 ≤ b.maxProbes) (hc : b.requests.Reachable b.init c)
    (ht : t.probe) (hl : c.threads[i]? = some l) (h : Tells i t o c.shared l)
    {a : Act Pc Choice Nat} (hnext : b.requests.next c a = some c') :
    ∃ l', c'.threads[i]? = some l' ∧ Tells i t o c'.shared l' := by
  have hknows := (inv_of_reachable hmax hc).knows
  have hlt := (List.getElem?_eq_some_iff.mp hl).1
  rcases next_cases hnext with ⟨k, rfl, -, rfl⟩ | ⟨j, x, k, k', m, rfl, hk, hstep, rfl⟩ |
    ⟨d, m, rfl, henv, rfl⟩
  · exact ⟨l, by rw [List.getElem?_append_left hlt]; exact hl, h⟩
  · have hspec := step_spec (hknows j k hk) hstep
    by_cases hj : j = i
    · subst hj
      obtain rfl : k = l := some.inj (hk.symm.trans hl)
      refine ⟨k', Pool.set_self hl, h.step hspec (fun hticket hold => ?_) hstep⟩
      have hle := (hknows j k hl).gen_le hticket
      rcases Nat.lt_or_eq_of_le hle with hlt | heq
      · exact hlt
      · -- its own ticket is in flight, so the breaker is half-open
        have hzero := inFlight_eq_zero hmax hc (hold.resolve_right fun hne => hne heq.symm)
        have hone := Pool.le_total (f := Pc.probing c.shared.cur.val.gen) hl
        rw [probing_of_ticket hticket, if_pos (by rw [← heq, ← ht])] at hone
        unfold inFlight at hzero
        omega
    · obtain ⟨hverdicts, hgen⟩ := hspec.kept
      exact ⟨l, by simpa only [List.getElem?_set_ne hj] using hl, h.grows hverdicts hgen⟩
  · cases henv
    exact ⟨l, hl, h.grows (List.Subset.refl _) (le_refl _)⟩

theorem tells_of_run (hmax : 1 ≤ b.maxProbes) (hc : b.requests.Reachable b.init c)
    (ht : t.probe) (hl : c.threads[i]? = some l) (h : Tells i t o c.shared l)
    {as : List (Act Pc Choice Nat)} (hrun : b.requests.run c as = some c') :
    ∃ l', c'.threads[i]? = some l' ∧ Tells i t o c'.shared l' := by
  induction as generalizing c l with
  | nil =>
    obtain rfl := some.inj hrun
    exact ⟨l, hl, h⟩
  | cons a as ih =>
    obtain ⟨c₁, hnext, hrest⟩ := bind_eq_some_iff.mp hrun
    obtain ⟨l₁, hl₁, h₁⟩ := tells_next hmax hc ht hl h hnext
    exact ih (hc.step hnext) hl₁ h₁ hrest

/-- Every step of every interleaving is lawful, and a probe that finished with `o` and has
returned has told it, or its generation is over. -/
theorem breaker_transitions (hmax : 1 ≤ b.maxProbes) (hc : b.requests.Reachable b.init c)
    {a : Act Pc Choice Nat} (h : b.requests.next c a = some c') :
    Lawful b c a c' ∧
    ∀ (i : Nat) (t : Ticket) (o : Outcome), a = .step i (.finish o) →
      c.threads[i]? = some (.held t) → t.probe →
      ∀ (as : List (Act Pc Choice Nat)) (c₂ : Pool Shared Pc) (l : Pc),
        b.requests.run c' as = some c₂ → c₂.threads[i]? = some l → l.finished →
        ⟨i, t.gen, o⟩ ∈ c₂.shared.verdicts ∨ t.gen < c₂.shared.cur.val.gen := by
  obtain ⟨hknows, hrec, -⟩ := recorded_of_reachable hc
  obtain ⟨-, hrec', hdist'⟩ := recorded_of_reachable (hc.step h)
  constructor
  · rcases next_effect hknows h with ⟨i, x, l, l', rfl, hl, hthreads, heffect⟩ |
      ⟨ha, hcur, hverdicts, hthreads⟩
    · exact lawful_of_effect (inv_of_reachable hmax hc) hrec hrec' hdist' hl hthreads heffect
    · exact lawful_of_same hrec' ha hcur hverdicts hthreads
  · rintro i t o rfl hl ht as c₂ l₂ hrun hl₂ hfinished
    have hstep : b.step i (.held t) (.finish o) c.shared = some (.probe t o, c.shared) := if_pos ht
    obtain rfl := some.inj (h.symm.trans (next_step hl hstep))
    obtain ⟨l', hl', htells⟩ := tells_of_run hmax (hc.step h) ht (Pool.set_self hl) .loads hrun
    obtain rfl : l' = l₂ := some.inj (hl'.symm.trans hl₂)
    cases htells with
    | told _ h => exact h
    | loads | reads | swaps => cases hfinished

/-- Requests 1 and 2 become probes; both succeed, and the step that closes is to come. -/
def bothSucceed : List (Act Pc Choice Nat) :=
  [.spawn .allow, .step 0 .go, .step 0 (.finish .failure), .step 0 .go, .step 0 .go, .step 0 .go,
    .step 0 .go, .env 5,
    .spawn .allow, .step 1 .go, .step 1 .go, .step 1 .go, .spawn .allow, .step 2 .go, .step 2 .go,
    .step 1 .go, .step 1 .go, .step 1 .go, .step 1 (.finish .success), .step 1 .go, .step 1 .go,
    .step 2 (.finish .success), .step 2 .go]

theorem breaker_transitions_bothSucceed :
    ∃ c c', twoProbes.requests.run ⟨twoProbes.init, []⟩ bothSucceed = some c ∧
      twoProbes.requests.next c (.step 2 .go) = some c' ∧
      c.shared.cur.val.state = .halfOpen ∧ c.shared.cur.val.gen = 2 ∧
      c'.shared.cur.val = { state := .closed, gen := 3 } ∧
      (succeeded c'.shared.verdicts 2).Nodup ∧ (succeeded c'.shared.verdicts 2).length = 2 := by
  obtain ⟨c, c', hrun, hnext, hhalf, hgen, hcur⟩ :
      ∃ c c', twoProbes.requests.run ⟨twoProbes.init, []⟩ bothSucceed = some c ∧
        twoProbes.requests.next c (.step 2 .go) = some c' ∧
        c.shared.cur.val.state = .halfOpen ∧ c.shared.cur.val.gen = 2 ∧
        c'.shared.cur.val = { state := .closed, gen := 3 } := ⟨_, _, rfl, rfl, rfl, rfl, rfl⟩
  have hc : twoProbes.requests.Reachable twoProbes.init c := Reachable.run .init hrun
  have hcloses := (breaker_transitions (b := twoProbes) (by decide) hc hnext).1.closes hhalf
    (by rw [hcur])
  rw [hgen] at hcloses
  have hlength : ((succeeded c'.shared.verdicts 2).length : Int) = 2 := hcloses.2.1
  exact ⟨c, c', hrun, hnext, hhalf, hgen, hcur, hcloses.1, by omega⟩

end GolangBasics.Resilient
