import GolangBasics.Resilient.Breaker

/-! What a step of a request does to the breaker. Every invariant of the breaker is read off
the effects listed here. -/
namespace GolangBasics.Resilient
open Conc

def Pc.ticket : Pc → Option Ticket
  | .held t | .record t _ | .recordNow t _ _ | .recordLock t _ _ _ | .recordTrip t _ _ _ _ _
  | .probe t _ | .probeNow t _ | .probeSwap t _ _ _ => some t
  | .notify _ _ t | .notifyState t | .notifyGauge _ t => t
  | .allow | .allowNow _ | .allowOpen _ | .allowProbe _ | .rejected | .recorded => none

def Pc.finished : Pc → Bool
  | .recorded | .notify _ _ none | .notifyState none | .notifyGauge _ none => true
  | _ => false

/-- A pointer loaded earlier: it is the current one or an older one. -/
def Loaded (m : Shared) (s : Ptr) : Prop :=
  s.addr ≤ m.cur.addr ∧ (s.addr = m.cur.addr → s = m.cur) ∧ s.val.gen ≤ m.cur.val.gen

/-- The snapshot `recordProbe` computes from the one it loaded. -/
def Breaker.Computes (b : Breaker) (o : Outcome) (s next : Snapshot) : Prop :=
  if o = .failure then ∃ now, next = { state := .open, gen := s.gen + 1, openedAt := now }
  else next = b.settle o s

def Breaker.Knows (b : Breaker) (m : Shared) : Pc → Prop
  | .allow | .rejected | .recorded => True
  | .allowNow s => Loaded m s ∧ s.val.state = .open
  | .allowOpen s => Loaded m s ∧ s.val.state = .open ∧ s.val.openedAt + b.openTimeout ≤ m.clock
  | .allowProbe s => Loaded m s ∧ s.val.state = .halfOpen ∧ s.val.probes < b.maxProbes
  | .held t => t.gen ≤ m.cur.val.gen
  | .record t _ => t.gen ≤ m.cur.val.gen ∧ t.probe = false
  | .recordNow t _ s | .recordLock t _ s _ | .recordTrip t _ s _ _ _ =>
    Loaded m s ∧ s.val.state = .closed ∧ s.val.gen = t.gen ∧ t.probe = false
  | .probe t _ => t.gen ≤ m.cur.val.gen ∧ t.probe = true
  | .probeNow t s => Loaded m s ∧ s.val.state = .halfOpen ∧ s.val.gen = t.gen ∧ t.probe = true
  | .probeSwap t o s next => Loaded m s ∧ s.val.state = .halfOpen ∧ s.val.gen = t.gen ∧
      t.probe = true ∧ b.Computes o s.val next
  | .notify _ _ t | .notifyState t | .notifyGauge _ t => ∀ x, t = some x → x.gen ≤ m.cur.val.gen

def Grows (m m' : Shared) : Prop :=
  m.clock ≤ m'.clock ∧
    (m'.cur = m.cur ∨ m.cur.addr < m'.cur.addr ∧ m.cur.val.gen ≤ m'.cur.val.gen)

inductive Effect (b : Breaker) (i : Nat) (m : Shared) (l l' : Pc) (m' : Shared) : Prop where
  /-- Nothing happens to the snapshot or to the ticket. -/
  | quiet (hcur : m'.cur = m.cur) (hverdicts : m'.verdicts = m.verdicts)
      (htransitions : m'.transitions = m.transitions) (hticket : l'.ticket = l.ticket)
      (hfinished : l.finished → l'.finished)
  /-- A closed breaker admits a request. -/
  | issue (hstate : m.cur.val.state = .closed) (hsame : m' = m) (hticket : l.ticket = none)
      (hticket' : l'.ticket = some ⟨m.cur.val.gen, false⟩) (hfinished : l.finished = false)
  /-- A ticket has no more effect: it is no probe's, or its generation is over. -/
  | drop (t : Ticket) (hsame : m' = m) (hticket : l.ticket = some t) (hticket' : l'.ticket = none)
      (hold : t.probe → m.cur.val.state ≠ .halfOpen ∨ m.cur.val.gen ≠ t.gen)
      (hfinished : l'.finished)
  /-- Open to half-open, with the first probe. -/
  | enter (hstate : m.cur.val.state = .open)
      (htime : m.cur.val.openedAt + b.openTimeout ≤ m.clock)
      (hcur : m'.cur = ⟨m.cur.addr + 1,
        { state := .halfOpen, gen := m.cur.val.gen + 1, probes := 1 }⟩)
      (hverdicts : m'.verdicts = m.verdicts)
      (htransitions : m'.transitions = ⟨i, .open, .halfOpen, m.cur.val.gen + 1⟩ :: m.transitions)
      (hticket : l.ticket = none) (hticket' : l'.ticket = some ⟨m.cur.val.gen + 1, true⟩)
      (hfinished : l.finished = false)
  /-- Another probe. -/
  | take (hstate : m.cur.val.state = .halfOpen) (hfree : m.cur.val.probes < b.maxProbes)
      (hcur : m'.cur = ⟨m.cur.addr + 1, { m.cur.val with probes := m.cur.val.probes + 1 }⟩)
      (hverdicts : m'.verdicts = m.verdicts) (htransitions : m'.transitions = m.transitions)
      (hticket : l.ticket = none) (hticket' : l'.ticket = some ⟨m.cur.val.gen, true⟩)
      (hfinished : l.finished = false)
  /-- A probe that stays without a verdict, or a success that does not close. -/
  | count (o : Outcome) (hstate : m.cur.val.state = .halfOpen)
      (ho : o = .ignored ∨ o = .success ∧ m.cur.val.successes + 1 < b.maxProbes)
      (hcur : m'.cur = ⟨m.cur.addr + 1, b.settle o m.cur.val⟩)
      (hverdicts : m'.verdicts = ⟨i, m.cur.val.gen, o⟩ :: m.verdicts)
      (htransitions : m'.transitions = m.transitions)
      (hticket : l.ticket = some ⟨m.cur.val.gen, true⟩) (hticket' : l'.ticket = none)
      (hfinished : l.finished = false) (hfinished' : l'.finished)
  /-- The success that closes, or the failure that opens again. -/
  | decide (o : Outcome) (next : Snapshot) (hstate : m.cur.val.state = .halfOpen)
      (ho : o = .success ∧ b.maxProbes ≤ m.cur.val.successes + 1 ∧ next.state = .closed ∨
        o = .failure ∧ next.state = .open)
      (hgen : next.gen = m.cur.val.gen + 1)
      (hcur : m'.cur = ⟨m.cur.addr + 1, next⟩)
      (hverdicts : m'.verdicts = ⟨i, m.cur.val.gen, o⟩ :: m.verdicts)
      (htransitions : m'.transitions =
        ⟨i, .halfOpen, next.state, m.cur.val.gen + 1⟩ :: m.transitions)
      (hticket : l.ticket = some ⟨m.cur.val.gen, true⟩) (hticket' : l'.ticket = none)
      (hfinished : l.finished = false) (hfinished' : l'.finished)
  /-- Closed to open. -/
  | trip (now : Nat) (hstate : m.cur.val.state = .closed)
      (hcur : m'.cur = ⟨m.cur.addr + 1,
        { state := .open, gen := m.cur.val.gen + 1, openedAt := now }⟩)
      (hverdicts : m'.verdicts = m.verdicts)
      (htransitions : m'.transitions = ⟨i, .closed, .open, m.cur.val.gen + 1⟩ :: m.transitions)
      (hticket : l.ticket = some ⟨m.cur.val.gen, false⟩) (hticket' : l'.ticket = none)
      (hfinished : l.finished = false) (hfinished' : l'.finished)

variable {b : Breaker} {i : Nat} {m m' : Shared} {l l' : Pc} {s : Ptr}

theorem loaded_cur (m : Shared) : Loaded m m.cur := ⟨le_refl _, fun _ => rfl, le_refl _⟩

theorem Loaded.grows (h : Loaded m s) (hg : Grows m m') : Loaded m' s := by
  obtain ⟨haddr, heq, hgen⟩ := h
  rcases hg.2 with hcur | ⟨hlt, hle⟩
  · unfold Loaded
    rw [hcur]
    exact ⟨haddr, heq, hgen⟩
  · exact ⟨by omega, fun h => by omega, by omega⟩

theorem Grows.gen (hg : Grows m m') : m.cur.val.gen ≤ m'.cur.val.gen := by
  rcases hg.2 with hcur | ⟨-, hle⟩
  · rw [hcur]
  · exact hle

/-- What a thread knows survives the steps of the others. -/
theorem Breaker.Knows.grows (h : b.Knows m l) (hg : Grows m m') : b.Knows m' l := by
  have hclock := hg.1
  have hgen := hg.gen
  cases l with
  | allow | rejected | recorded => trivial
  | allowNow s | recordNow t f s | recordLock t f s n | recordTrip t f s n x y
  | probeNow t s | probeSwap t o s n | allowProbe s => exact ⟨h.1.grows hg, h.2⟩
  | allowOpen s =>
    have htime := h.2.2
    exact ⟨h.1.grows hg, h.2.1, by omega⟩
  | held t => exact le_trans h hgen
  | record t f | probe t o => exact ⟨le_trans h.1 hgen, h.2⟩
  | notify x y t | notifyState t | notifyGauge x t => exact fun t ht => le_trans (h t ht) hgen

variable {next : Snapshot}

theorem compareAndSwap_eq_some (hs : Loaded m s) (h : m.compareAndSwap s next = some m') :
    s = m.cur ∧ m' = { m with cur := ⟨m.cur.addr + 1, next⟩ } := by
  unfold Shared.compareAndSwap at h
  split at h
  · rename_i haddr
    exact ⟨hs.2.1 haddr.symm, (Option.some.inj h).symm⟩
  · cases h

theorem swap_eq_some (hs : Loaded m s) (h : m.swap i s next = some m') : s = m.cur ∧ m' = { m with
      cur := ⟨m.cur.addr + 1, next⟩
      transitions := ⟨i, m.cur.val.state, next.state, next.gen⟩ :: m.transitions } := by
  obtain ⟨m₁, hcas, rfl⟩ := Option.map_eq_some_iff.mp h
  obtain ⟨rfl, rfl⟩ := compareAndSwap_eq_some hs hcas
  exact ⟨rfl, rfl⟩

structure Stepped (b : Breaker) (i : Nat) (m : Shared) (l l' : Pc) (m' : Shared) : Prop where
  effect : Effect b i m l l' m'
  knows : b.Knows m' l'
  clock : m'.clock = m.clock

theorem stepped_quiet (hticket : l'.ticket = l.ticket) (hfinished : l.finished → l'.finished)
    (hknows : b.Knows m l') : Stepped b i m l l' m :=
  ⟨.quiet rfl rfl rfl hticket hfinished, hknows, rfl⟩

theorem allow_spec (h : b.step i .allow .go m = some (l', m')) : Stepped b i m .allow l' m' := by
  unfold Breaker.step at h
  dsimp only at h
  split at h
  · rename_i hstate
    cases h
    exact ⟨.issue hstate rfl rfl rfl rfl, le_refl m.cur.val.gen, rfl⟩
  · rename_i hstate
    cases h
    exact stepped_quiet rfl id ⟨loaded_cur m, hstate⟩
  · rename_i hstate
    split at h
    · cases h
      exact stepped_quiet rfl (by simp [Pc.finished]) trivial
    · rename_i hfree
      cases h
      exact stepped_quiet rfl id ⟨loaded_cur m, hstate, by omega⟩

theorem allowNow_spec (hk : b.Knows m (.allowNow s))
    (h : b.step i (.allowNow s) .go m = some (l', m')) : Stepped b i m (.allowNow s) l' m' := by
  unfold Breaker.step at h
  dsimp only at h
  split at h
  · cases h
    exact stepped_quiet rfl (by simp [Pc.finished]) trivial
  · rename_i hlong
    cases h
    exact stepped_quiet rfl id ⟨hk.1, hk.2, by omega⟩

theorem allowOpen_spec (hk : b.Knows m (.allowOpen s))
    (h : b.step i (.allowOpen s) .go m = some (l', m')) : Stepped b i m (.allowOpen s) l' m' := by
  unfold Breaker.step at h
  dsimp only at h
  split at h
  · rename_i m₁ hswap
    cases h
    obtain ⟨rfl, rfl⟩ := swap_eq_some hk.1 hswap
    refine ⟨.enter hk.2.1 hk.2.2 rfl rfl ?_ rfl rfl rfl, ?_, rfl⟩
    · simp only [hk.2.1]
    · intro t ht
      cases ht
      exact le_refl _
  · cases h
    exact stepped_quiet rfl id trivial

theorem allowProbe_spec (hk : b.Knows m (.allowProbe s))
    (h : b.step i (.allowProbe s) .go m = some (l', m')) :
    Stepped b i m (.allowProbe s) l' m' := by
  unfold Breaker.step at h
  dsimp only at h
  split at h
  · rename_i m₁ hcas
    cases h
    obtain ⟨rfl, rfl⟩ := compareAndSwap_eq_some hk.1 hcas
    exact ⟨.take hk.2.1 hk.2.2 rfl rfl rfl rfl rfl rfl, le_refl m.cur.val.gen, rfl⟩
  · cases h
    exact stepped_quiet rfl id trivial

variable {t : Ticket} {o : Outcome}

theorem held_spec (hk : b.Knows m (.held t)) (h : b.step i (.held t) (.finish o) m = some (l', m')) :
    Stepped b i m (.held t) l' m' := by
  unfold Breaker.step at h
  dsimp only at h
  split at h
  · rename_i hprobe
    cases h
    exact stepped_quiet rfl id ⟨hk, hprobe⟩
  · rename_i hprobe
    have hprobe : t.probe = false := by simpa using hprobe
    cases o with
    | ignored =>
      cases h
      exact ⟨.drop t rfl rfl rfl (by simp [hprobe]) rfl, trivial, rfl⟩
    | success | failure =>
      cases h
      exact stepped_quiet rfl id ⟨hk, hprobe⟩

theorem record_spec {failed : Bool} (hk : b.Knows m (.record t failed))
    (h : b.step i (.record t failed) .go m = some (l', m')) :
    Stepped b i m (.record t failed) l' m' := by
  unfold Breaker.step at h
  dsimp only at h
  split at h
  · cases h
    exact ⟨.drop t rfl rfl rfl (by simp [hk.2]) rfl, trivial, rfl⟩
  · rename_i hcur
    cases h
    have hcur : m.cur.val.state = .closed ∧ m.cur.val.gen = t.gen := by simpa [not_or] using hcur
    exact stepped_quiet rfl id ⟨loaded_cur m, hcur.1, hcur.2, hk.2⟩

theorem recordTrip_spec {failed : Bool} {now : Nat} {requests failures : Int}
    (hk : b.Knows m (.recordTrip t failed s now requests failures))
    (h : b.step i (.recordTrip t failed s now requests failures) .go m = some (l', m')) :
    Stepped b i m (.recordTrip t failed s now requests failures) l' m' := by
  obtain ⟨hs, hstate, hgen, hprobe⟩ := hk
  have hdrop : Stepped b i m (.recordTrip t failed s now requests failures) .recorded m :=
    ⟨.drop t rfl rfl rfl (by simp [hprobe]) rfl, trivial, rfl⟩
  unfold Breaker.step at h
  dsimp only at h
  split at h
  · split at h
    · rename_i m₁ hswap
      cases h
      obtain ⟨rfl, rfl⟩ := swap_eq_some hs hswap
      have ht : t = ⟨m.cur.val.gen, false⟩ := by rw [hgen, ← hprobe]
      refine ⟨.trip now hstate rfl rfl ?_ (congrArg some ht) rfl rfl rfl, by simp [Breaker.Knows],
        rfl⟩
      simp only [hstate]
    · cases h
      exact hdrop
  · cases h
    exact hdrop

theorem probe_spec (hk : b.Knows m (.probe t o)) (h : b.step i (.probe t o) .go m = some (l', m')) :
    Stepped b i m (.probe t o) l' m' := by
  unfold Breaker.step at h
  dsimp only at h
  split at h
  · rename_i hold
    cases h
    exact ⟨.drop t rfl rfl rfl (fun _ => hold) rfl, trivial, rfl⟩
  · rename_i hcur
    have hcur : m.cur.val.state = .halfOpen ∧ m.cur.val.gen = t.gen := by simpa [not_or] using hcur
    cases o with
    | failure =>
      cases h
      exact stepped_quiet rfl id ⟨loaded_cur m, hcur.1, hcur.2, hk.2⟩
    | success | ignored =>
      cases h
      exact stepped_quiet rfl id ⟨loaded_cur m, hcur.1, hcur.2, hk.2, by simp [Breaker.Computes]⟩

theorem settle_success {s : Snapshot} (h : s.successes + 1 < b.maxProbes) :
    b.settle .success s = { s with successes := s.successes + 1 } := by
  simp only [Breaker.settle, if_neg (not_le.mpr h)]

theorem settle_same {s : Snapshot}
    (ho : o = .ignored ∨ o = .success ∧ s.successes + 1 < b.maxProbes) :
    (b.settle o s).state = s.state ∧ (b.settle o s).gen = s.gen := by
  rcases ho with rfl | ⟨rfl, hlast⟩
  · exact ⟨rfl, rfl⟩
  · rw [settle_success hlast]
    exact ⟨rfl, rfl⟩

/-- A probe's result keeps the breaker half-open exactly when it does not decide. -/
theorem settle_state (o : Outcome) {s : Snapshot} (hs : s.state = .halfOpen)
    (ho : o ≠ .failure) : (b.settle o s).state = .halfOpen ∧
      (o = .ignored ∨ o = .success ∧ s.successes + 1 < b.maxProbes) ∨
      b.settle o s = { state := .closed, gen := s.gen + 1 } ∧ o = .success ∧
        b.maxProbes ≤ s.successes + 1 := by
  cases o with
  | failure => exact absurd rfl ho
  | ignored => exact .inl ⟨hs, .inl rfl⟩
  | success =>
    by_cases hlast : b.maxProbes ≤ s.successes + 1
    · exact .inr ⟨by simp [Breaker.settle, hlast], rfl, hlast⟩
    · refine .inl ⟨?_, .inr ⟨rfl, by omega⟩⟩
      simp only [Breaker.settle, if_neg hlast]
      exact hs

theorem probeSwap_spec (hk : b.Knows m (.probeSwap t o s next))
    (h : b.step i (.probeSwap t o s next) .go m = some (l', m')) :
    Stepped b i m (.probeSwap t o s next) l' m' := by
  obtain ⟨hs, hstate, hgen, hprobe, hnext⟩ := hk
  have ht : t = ⟨s.val.gen, true⟩ := by rw [hgen, ← hprobe]
  have hretry : Stepped b i m (.probeSwap t o s next) (.probe t o) m :=
    stepped_quiet rfl id ⟨hgen ▸ hs.2.2, hprobe⟩
  unfold Breaker.step at h
  dsimp only at h
  by_cases ho : o = .failure
  · -- a failure: the snapshot is the open one
    obtain ⟨now, hopen⟩ : ∃ now, next = { state := .open, gen := s.val.gen + 1, openedAt := now } :=
      by simpa [Breaker.Computes, ho] using hnext
    rw [if_pos (by simp [hopen, hstate])] at h
    split at h
    · rename_i m₁ hswap
      cases h
      obtain ⟨rfl, rfl⟩ := swap_eq_some hs hswap
      refine ⟨.decide o next hstate (.inr ⟨ho, by rw [hopen]⟩) (by rw [hopen]) rfl ?_ ?_
        (congrArg some ht) rfl rfl rfl, by simp [Breaker.Knows], rfl⟩
      · simp only [hgen]
      · simp only [hstate, hopen]
    · cases h
      exact hretry
  · have hsettle : next = b.settle o s.val := by simpa [Breaker.Computes, ho] using hnext
    rcases settle_state (b := b) o hstate ho with ⟨hsame, hcount⟩ | ⟨hclosed, hsuccess, hlast⟩
    · rw [if_neg (by rw [hsettle, hsame, hstate]; simp)] at h
      split at h
      · rename_i m₁ hcas
        cases h
        obtain ⟨rfl, rfl⟩ := compareAndSwap_eq_some hs hcas
        refine ⟨.count o hstate hcount (by rw [hsettle]) ?_ rfl (congrArg some ht) rfl rfl rfl,
          trivial, rfl⟩
        simp only [hgen]
      · cases h
        exact hretry
    · rw [if_pos (by rw [hsettle, hclosed, hstate]; simp)] at h
      split at h
      · rename_i m₁ hswap
        cases h
        obtain ⟨rfl, rfl⟩ := swap_eq_some hs hswap
        have hnextEq := hsettle.trans hclosed
        refine ⟨.decide o next hstate (.inl ⟨hsuccess, hlast, by rw [hnextEq]⟩)
          (by rw [hnextEq]) rfl ?_ ?_ (congrArg some ht) rfl rfl rfl, by simp [Breaker.Knows], rfl⟩
        · simp only [hgen]
        · simp only [hstate, hnextEq]
      · cases h
        exact hretry

/-- The step lemma: one case for every place a thread can be. -/
theorem step_spec {x : Choice} (hk : b.Knows m l) (h : b.step i l x m = some (l', m')) :
    Stepped b i m l l' m' := by
  cases l <;> cases x
  case held.finish t o => exact held_spec hk h
  case allow.go => exact allow_spec h
  case allowNow.go s => exact allowNow_spec hk h
  case allowOpen.go s => exact allowOpen_spec hk h
  case allowProbe.go s => exact allowProbe_spec hk h
  case record.go t failed => exact record_spec hk h
  case recordTrip.go t failed s now requests failures => exact recordTrip_spec hk h
  case probe.go t o => exact probe_spec hk h
  case probeSwap.go t o s next => exact probeSwap_spec hk h
  -- any other choice is impossible or leads to one place
  all_goals cases h
  case recordNow.go t failed s => exact stepped_quiet rfl id hk
  case recordLock.go t failed s now => exact ⟨.quiet rfl rfl rfl rfl id, hk, rfl⟩
  case probeNow.go t s =>
    exact stepped_quiet rfl id ⟨hk.1, hk.2.1, hk.2.2.1, hk.2.2.2, by simp [Breaker.Computes]⟩
  case notify.go source target t =>
    refine ⟨.quiet rfl rfl rfl rfl ?_, hk, rfl⟩
    cases t <;> simp [Pc.finished]
  case notifyState.go t =>
    refine stepped_quiet rfl ?_ hk
    cases t <;> simp [Pc.finished]
  case notifyGauge.go state t =>
    cases t with
    | none => exact ⟨.quiet rfl rfl rfl rfl fun _ => rfl, trivial, rfl⟩
    | some t => exact ⟨.quiet rfl rfl rfl rfl (by simp [Pc.finished]), hk t rfl, rfl⟩

theorem Effect.grows (h : Effect b i m l l' m') (hclock : m'.clock = m.clock) : Grows m m' := by
  refine ⟨hclock.ge, ?_⟩
  cases h with
  | quiet hcur => exact .inl hcur
  | issue _ hsame | drop _ hsame => exact .inl (by rw [hsame])
  | enter _ _ hcur | take _ _ hcur | trip _ _ hcur => exact .inr (by rw [hcur]; simp)
  | count o _ _ hcur =>
    refine .inr ?_
    rw [hcur]
    refine ⟨by simp, ?_⟩
    unfold Breaker.settle
    split
    · split <;> simp
    · simp
  | decide o next _ _ hgen hcur =>
    refine .inr ?_
    rw [hcur]
    exact ⟨by simp, by simp only [hgen]; omega⟩

end GolangBasics.Resilient
