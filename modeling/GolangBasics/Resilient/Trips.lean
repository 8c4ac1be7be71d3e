import GolangBasics.Resilient.Sequential

/-! When the closed breaker opens, against the whole history of what callers one at a time
have told it: the ring with its lazy reuse of slots and its lazy reset per generation forgets
nothing that counts. -/
namespace GolangBasics.Resilient
open Conc List

structure Told where
  ticket : Ticket
  outcome : Outcome
  now : Nat

def Told.added (x : Told) : Added := ⟨x.ticket.gen, x.now, decide (x.outcome = .failure)⟩

def Told.counts (g : Nat) (x : Told) : Bool := x.ticket.gen = g && x.outcome ≠ .ignored

/-- The outcomes of a generation that count, in the ten slots that end at `now`. -/
def counted (unit g now : Nat) (told : List Told) : List Told :=
  told.filter fun x => x.counts g && inWindow unit now x.now

/-- The newest outcome is a failure in generation `g`, and with it there are enough outcomes and
enough failures among them. -/
def Trips (failureRatio : ℚ) (minRequests : Int) (unit g : Nat) : List Told → Prop
  | [] => False
  | x :: told =>
    let outcomes := counted unit g x.now (x :: told)
    x.outcome = .failure ∧ x.ticket.gen = g ∧ minRequests ≤ outcomes.length ∧
      failureRatio * outcomes.length ≤ outcomes.countP fun y => y.outcome = .failure

structure Course where
  breaker : Solo
  clock : Nat
  issued : List Ticket
  told : List Told

namespace Course

inductive Call where
  | allow (wait : Nat)
  | record (wait : Nat) (t : Ticket) (o : Outcome)

def init (b : Breaker) : Course := ⟨b.fresh, 0, [], []⟩

/-- Outcomes are told for tickets that were given out. -/
def next (b : Breaker) (c : Course) : Call → Option Course
  | .allow wait =>
    let now := c.clock + wait
    let (t, s) := c.breaker.allow b now
    some { c with breaker := s, clock := now, issued := t.toList ++ c.issued }
  | .record wait t o =>
    let now := c.clock + wait
    if t ∈ c.issued then
      some { c with
        breaker := c.breaker.record b t o now
        clock := now
        told := ⟨t, o, now⟩ :: c.told }
    else none

inductive Reached (b : Breaker) : Course → Prop
  | init : Reached b (init b)
  | call {c c' : Course} (x : Call) (hc : Reached b c) (h : c.next b x = some c') : Reached b c'

end Course

namespace Solo

variable {b : Breaker} {s : Solo} {now : Nat}

theorem allow_closed (b : Breaker) (now : Nat) (h : s.cur.state = .closed) :
    s.allow b now = (some ⟨s.cur.gen, false⟩, s) := by
  simp [allow, h]

/-- `allow` leaves a closed breaker as it is, and never closes one. -/
theorem allow_spec {t : Option Ticket} {s' : Solo} (h : s.allow b now = (t, s')) :
    (s.cur.state = .closed ∧ t = some ⟨s.cur.gen, false⟩ ∧ s' = s) ∨
      (s.cur.state ≠ .closed ∧ s'.cur.state ≠ .closed ∧ s'.win = s.win ∧ s'.winGen = s.winGen ∧
        s.cur.gen ≤ s'.cur.gen ∧ ∀ t' ∈ t, t'.gen = s'.cur.gen) := by
  unfold allow at h
  cases hstate : s.cur.state with
  | closed =>
    simp only [hstate, Prod.mk.injEq] at h
    exact .inl ⟨rfl, h.1.symm, h.2.symm⟩
  | «open» | halfOpen =>
    refine .inr ⟨by simp, ?_⟩
    simp only [hstate] at h
    split at h <;> simp only [Prod.mk.injEq] at h <;> obtain ⟨rfl, rfl⟩ := h <;> simp [hstate]

theorem record_closed_eq {t : Ticket} {o : Outcome} (hstate : s.cur.state = .closed)
    (h : ¬(t.probe = false ∧ o ≠ .ignored ∧ s.cur.gen = t.gen)) : s.record b t o now = s := by
  unfold record
  cases hprobe : t.probe with
  | true =>
    have hclosed : s.cur.state ≠ .halfOpen := by simp [hstate]
    simp [recordProbe, hclosed]
  | false =>
    by_cases ho : o = .ignored
    · simp [ho]
    · have hgen : s.cur.gen ≠ t.gen := fun hgen => h ⟨hprobe, ho, hgen⟩
      simp [ho, hgen]

theorem record_notClosed (now : Nat) (t : Ticket) (o : Outcome) (hstate : s.cur.state ≠ .closed) :
    let s' := s.record b t o now
    s'.win = s.win ∧ s'.winGen = s.winGen ∧
      (s'.cur.gen = s.cur.gen ∧ s'.cur.state ≠ .closed ∨ s'.cur.gen = s.cur.gen + 1) := by
  intro s'
  cases hprobe : t.probe with
  | false =>
    have hsame : s' = s := by simp [s', record, hprobe, hstate]
    rw [hsame]
    exact ⟨rfl, rfl, .inl ⟨rfl, hstate⟩⟩
  | true =>
    have hs' : s' = s.recordProbe b t o now := by simp [s', record, hprobe]
    rw [hs']
    unfold recordProbe
    by_cases hstale : s.cur.state ≠ .halfOpen ∨ s.cur.gen ≠ t.gen
    · rw [if_pos hstale]
      exact ⟨rfl, rfl, .inl ⟨rfl, hstate⟩⟩
    · rw [if_neg hstale]
      cases o with
      | ignored => exact ⟨rfl, rfl, .inl ⟨rfl, hstate⟩⟩
      | failure => exact ⟨rfl, rfl, .inr rfl⟩
      | success =>
        by_cases hlast : b.maxProbes ≤ s.cur.successes + 1
        · simp [hlast]
        · simp [hlast, hstate]

end Solo

namespace Course

variable {b : Breaker} {c : Course} {added : List Added}

structure Inv (b : Breaker) (c : Course) (added : List Added) : Prop where
  /-- No ticket is from the future, and those of a closed generation are no probes'. -/
  tickets : ∀ t ∈ c.issued, t.gen ≤ c.breaker.cur.gen ∧
    (c.breaker.cur.state = .closed → t.gen = c.breaker.cur.gen → t.probe = false)
  told : ∀ x ∈ c.told, x.ticket.gen ≤ c.breaker.cur.gen
  remembers : Remembers b c.breaker.win c.breaker.winGen added
  past : ∀ x ∈ added, x.gen ≤ c.breaker.cur.gen ∧ x.now ≤ c.clock
  sorted : added.Pairwise fun new old => old.gen ≤ new.gen ∧ old.now ≤ new.now
  /-- Of a closed generation, everything that counts has been added. -/
  same : c.breaker.cur.state = .closed →
    added.filter (·.gen = c.breaker.cur.gen) =
      (c.told.filter (·.counts c.breaker.cur.gen)).map Told.added

theorem inv_init (b : Breaker) : Inv b (init b) [] where
  tickets := by simp [init]
  told := by simp [init]
  remembers := ⟨rfl, holds_new b.length, by simp [survivors]⟩
  past := by simp
  sorted := .nil
  same := by simp [init]

variable {c' : Course}

/-- A call that leaves the window alone and does not stay in a closed generation. -/
theorem Inv.moves (h : Inv b c added) (hwin : c'.breaker.win = c.breaker.win)
    (hwinGen : c'.breaker.winGen = c.breaker.winGen) (hgen : c.breaker.cur.gen ≤ c'.breaker.cur.gen)
    (hnew : c'.breaker.cur.state = .closed → c.breaker.cur.gen < c'.breaker.cur.gen)
    (hclock : c.clock ≤ c'.clock) (hissued : ∀ t ∈ c'.issued, t ∈ c.issued ∨
      t.gen = c'.breaker.cur.gen ∧ c'.breaker.cur.state ≠ .closed)
    (htold : ∀ x ∈ c'.told, x ∈ c.told ∨ x.ticket ∈ c.issued) : Inv b c' added := by
  have hold : ∀ x ∈ c'.told, x.ticket.gen ≤ c.breaker.cur.gen := by
    intro x hx
    rcases htold x hx with hx | hx
    · exact h.told x hx
    · exact (h.tickets _ hx).1
  constructor
  · intro t ht
    rcases hissued t ht with ht | ⟨ht, hopen⟩
    · have hle := (h.tickets t ht).1
      refine ⟨hle.trans hgen, fun hclosed heq => ?_⟩
      have := hnew hclosed
      omega
    · exact ⟨ht.le, fun hclosed => absurd hclosed hopen⟩
  · exact fun x hx => (hold x hx).trans hgen
  · rw [hwin, hwinGen]
    exact h.remembers
  · exact fun x hx => ⟨(h.past x hx).1.trans hgen, (h.past x hx).2.trans hclock⟩
  · exact h.sorted
  · intro hclosed
    -- a generation that is new has no outcomes yet
    have hlt := hnew hclosed
    have hnone : added.filter (·.gen = c'.breaker.cur.gen) = [] := by
      refine filter_eq_nil_iff.mpr fun x hx => ?_
      have hle := (h.past x hx).1
      simp only [decide_eq_true_eq]
      omega
    have hnoneTold : c'.told.filter (·.counts c'.breaker.cur.gen) = [] := by
      refine filter_eq_nil_iff.mpr fun x hx => ?_
      have hle := hold x hx
      simp only [Told.counts, Bool.and_eq_true, decide_eq_true_eq]
      omega
    rw [hnone, hnoneTold, map_nil]

theorem Inv.stays (h : Inv b c added) (hbreaker : c'.breaker = c.breaker)
    (hclock : c.clock ≤ c'.clock)
    (hissued : ∀ t ∈ c'.issued, t ∈ c.issued ∨ t = ⟨c.breaker.cur.gen, false⟩)
    (htold : ∀ x ∈ c'.told, x ∈ c.told ∨ x.ticket ∈ c.issued)
    (hcounts : c'.told.filter (·.counts c.breaker.cur.gen) =
      c.told.filter (·.counts c.breaker.cur.gen)) : Inv b c' added := by
  constructor
  all_goals try rw [hbreaker]
  · intro t ht
    rcases hissued t ht with ht | rfl
    · exact h.tickets t ht
    · exact ⟨le_refl _, fun _ _ => rfl⟩
  · intro x hx
    rcases htold x hx with hx | hx
    · exact h.told x hx
    · exact (h.tickets _ hx).1
  · exact h.remembers
  · exact fun x hx => ⟨(h.past x hx).1, (h.past x hx).2.trans hclock⟩
  · exact h.sorted
  · intro hstate
    rw [hcounts]
    exact h.same hstate

theorem gen_of_counts {x : Told} {g : Nat} (hx : x.counts g) : x.ticket.gen = g := by
  simp only [Told.counts, Bool.and_eq_true, decide_eq_true_eq] at hx
  exact hx.1

theorem Inv.same_cons (h : Inv b c added) (hclosed : c.breaker.cur.state = .closed) {x : Told}
    (hx : x.counts c.breaker.cur.gen) :
    (x.added :: added).filter (·.gen = c.breaker.cur.gen) =
      ((x :: c.told).filter (·.counts c.breaker.cur.gen)).map Told.added := by
  have hgen : x.added.gen = c.breaker.cur.gen := gen_of_counts hx
  rw [filter_cons_of_pos (by simpa using hgen), filter_cons_of_pos hx, map_cons,
    h.same hclosed]

theorem Inv.sorted_cons (h : Inv b c added) {x : Told} (hx : x.ticket.gen = c.breaker.cur.gen)
    (hnow : c.clock ≤ x.now) :
    (x.added :: added).Pairwise fun new old => old.gen ≤ new.gen ∧ old.now ≤ new.now := by
  refine pairwise_cons.mpr ⟨fun old hold => ?_, h.sorted⟩
  obtain ⟨hgen, hclock⟩ := h.past old hold
  exact ⟨hgen.trans hx.ge, hclock.trans hnow⟩

theorem Inv.sums (h : Inv b c added) (hclosed : c.breaker.cur.state = .closed) {x : Told}
    (hx : x.counts c.breaker.cur.gen) (hnow : c.clock ≤ x.now) :
    let outcomes := counted b.unit c.breaker.cur.gen x.now (x :: c.told)
    (lockedSection c.breaker.win c.breaker.winGen x.added).2.2 =
      ((outcomes.length : Int), (outcomes.countP fun y => y.outcome = .failure : Int)) := by
  intro outcomes
  have hgen := gen_of_counts hx
  have hundisturbed : b.Undisturbed c.breaker.cur.gen x.now (x.added :: added) := by
    refine undisturbed_of_sorted ?_ ?_
    · refine (h.sorted_cons hgen hnow).imp fun {new old} hle => ⟨hle.1, fun _ => ?_⟩
      exact Nat.div_le_div_right hle.2
    · intro y hy
      rcases mem_cons.mp hy with rfl | hy
      · exact ⟨hgen.le, fun _ => le_refl _⟩
      · obtain ⟨hpast, hclock⟩ := h.past y hy
        exact ⟨hpast, fun _ => Nat.div_le_div_right (hclock.trans hnow)⟩
  have hhistory : b.outcomes c.breaker.cur.gen x.now (x.added :: added) =
      outcomes.map Told.added := by
    have hsplit : b.outcomes c.breaker.cur.gen x.now (x.added :: added) =
        ((x.added :: added).filter (·.gen = c.breaker.cur.gen)).filter
          fun y => inWindow b.unit x.now y.now := by
      rw [filter_filter]
      exact filter_congr fun y _ => Bool.and_comm _ _
    rw [hsplit, h.same_cons hclosed hx, filter_map, filter_filter]
    refine congrArg _ (filter_congr fun y _ => Bool.and_comm _ _)
  have hsums := lockedSection_sums h.remembers x.added
  obtain ⟨hlength, hfailures⟩ :=
    (outcomes_survivors_iff c.breaker.cur.gen x.now (x.added :: added)).mpr hundisturbed
  simp only [Told.added, hgen] at hsums hlength hfailures hhistory
  simp only [Told.added, hgen]
  rw [hsums, hlength, hfailures, hhistory, length_map, countP_map]
  rfl

variable {failureRatio : ℚ} {minRequests openTimeout halfOpenProbes : Int} {window : Nat}

theorem newBreaker_spec
    (hb : newBreaker failureRatio minRequests openTimeout halfOpenProbes window = some b) :
    b.minRequests = minRequests ∧
      ∀ requests failures : Int, b.reaches requests failures =
        decide (failureRatio * requests ≤ failures) := by
  unfold newBreaker at hb
  split at hb
  · cases hb
  · cases hb
    exact ⟨rfl, fun _ _ => rfl⟩

/-- `record` on a closed breaker, for an outcome that counts: the history decides. -/
theorem Inv.record_counted
    (hb : newBreaker failureRatio minRequests openTimeout halfOpenProbes window = some b)
    (h : Inv b c added) (hclosed : c.breaker.cur.state = .closed) {t : Ticket} {o : Outcome}
    {now : Nat} (hnow : c.clock ≤ now) (hprobe : t.probe = false) (ho : o ≠ .ignored)
    (hgen : c.breaker.cur.gen = t.gen) :
    let s' := c.breaker.record b t o now
    (Trips failureRatio minRequests b.unit c.breaker.cur.gen (⟨t, o, now⟩ :: c.told) →
      s'.cur = { state := .open, gen := c.breaker.cur.gen + 1, openedAt := now }) ∧
    (¬Trips failureRatio minRequests b.unit c.breaker.cur.gen (⟨t, o, now⟩ :: c.told) →
      s'.cur = c.breaker.cur) := by
  have hx : Told.counts c.breaker.cur.gen ⟨t, o, now⟩ := by simp [Told.counts, hgen, ho]
  have hsums := h.sums hclosed hx hnow
  obtain ⟨hmin, hreaches⟩ := newBreaker_spec hb
  rw [Told.added] at hsums
  rw [Solo.record_counted b c.breaker t o now hprobe ho hclosed hgen]
  simp only [← hgen] at hsums
  simp only [hsums, hmin, hreaches, decide_eq_true_eq, Trips, hgen.symm, true_and]
  push_cast
  exact ⟨fun htrips => if_pos htrips, fun hstays => if_neg hstays⟩

/-- What a call does to a closed breaker: it opens exactly at an outcome with which the history
trips, and otherwise the snapshot stays. -/
theorem Inv.next_closed
    (hb : newBreaker failureRatio minRequests openTimeout halfOpenProbes window = some b)
    (h : Inv b c added) (hclosed : c.breaker.cur.state = .closed) {x : Call}
    (hx : c.next b x = some c') : (∃ y, c'.told = y :: c.told ∧
        Trips failureRatio minRequests b.unit c.breaker.cur.gen c'.told ∧
        c'.breaker.cur = { state := .open, gen := c.breaker.cur.gen + 1, openedAt := y.now }) ∨
      (c'.breaker.cur = c.breaker.cur ∧ (c'.told = c.told ∨ ∃ y, c'.told = y :: c.told ∧
        ¬Trips failureRatio minRequests b.unit c.breaker.cur.gen c'.told)) := by
  cases x with
  | allow wait =>
    simp only [next, Solo.allow_closed b (c.clock + wait) hclosed, Option.some.injEq] at hx
    subst hx
    exact .inr ⟨rfl, .inl rfl⟩
  | record wait t o =>
    simp only [next] at hx
    split at hx
    case isFalse => cases hx
    rename_i ht
    cases hx
    by_cases hcounts : t.probe = false ∧ o ≠ .ignored ∧ c.breaker.cur.gen = t.gen
    · obtain ⟨hprobe, ho, hgen⟩ := hcounts
      obtain ⟨hopens, hstays⟩ :=
        h.record_counted hb hclosed (Nat.le_add_right c.clock wait) hprobe ho hgen
      by_cases htrips : Trips failureRatio minRequests b.unit c.breaker.cur.gen
        (⟨t, o, c.clock + wait⟩ :: c.told)
      · exact .inl ⟨_, rfl, htrips, hopens htrips⟩
      · exact .inr ⟨hstays htrips, .inr ⟨_, rfl, htrips⟩⟩
    · rw [Solo.record_closed_eq hclosed hcounts]
      refine .inr ⟨rfl, .inr ⟨_, rfl, ?_⟩⟩
      rintro ⟨ho, hgen, -⟩
      have hprobe := (h.tickets t ht).2 hclosed hgen
      have ho : o = .failure := ho
      exact hcounts ⟨hprobe, by simp [ho], hgen.symm⟩

theorem Inv.counts (h : Inv b c added) (hclosed : c.breaker.cur.state = .closed) {t : Ticket}
    {o : Outcome} {now : Nat} (hnow : c.clock ≤ now) (hprobe : t.probe = false)
    (ho : o ≠ .ignored) (hgen : c.breaker.cur.gen = t.gen) :
    Inv b ⟨c.breaker.record b t o now, now, c.issued, ⟨t, o, now⟩ :: c.told⟩
      (⟨t.gen, now, decide (o = .failure)⟩ :: added) := by
  have hx : Told.counts c.breaker.cur.gen ⟨t, o, now⟩ := by simp [Told.counts, hgen, ho]
  have hcur : (c.breaker.record b t o now).cur = c.breaker.cur ∨
      (c.breaker.record b t o now).cur.state = .open ∧
        (c.breaker.record b t o now).cur.gen = c.breaker.cur.gen + 1 := by
    rw [Solo.record_counted b c.breaker t o now hprobe ho hclosed hgen]
    dsimp only
    split
    · exact .inr ⟨rfl, rfl⟩
    · exact .inl rfl
  have hle : c.breaker.cur.gen ≤ (c.breaker.record b t o now).cur.gen := by
    rcases hcur with hcur | ⟨-, hcur⟩ <;> rw [hcur]
    exact Nat.le_succ _
  constructor
  · intro t' ht'
    obtain ⟨hpast, hno⟩ := h.tickets t' ht'
    refine ⟨hpast.trans hle, ?_⟩
    dsimp only
    rcases hcur with hcur | ⟨hcur, -⟩ <;> rw [hcur]
    · exact hno
    · simp
  · intro y hy
    rcases mem_cons.mp hy with rfl | hy
    · exact hgen.ge.trans hle
    · exact (h.told y hy).trans hle
  · dsimp only
    rw [Solo.record_counted b c.breaker t o now hprobe ho hclosed hgen, hgen]
    exact lockedSection_remembers h.remembers _
  · intro y hy
    rcases mem_cons.mp hy with rfl | hy
    · exact ⟨hgen.ge.trans hle, le_refl _⟩
    · exact ⟨(h.past y hy).1.trans hle, (h.past y hy).2.trans hnow⟩
  · exact h.sorted_cons (x := ⟨t, o, now⟩) hgen.symm hnow
  · dsimp only
    rcases hcur with hcur | ⟨hcur, -⟩ <;> rw [hcur]
    · intro _
      exact h.same_cons hclosed hx
    · simp

theorem Inv.next_notClosed (h : Inv b c added) (hopen : c.breaker.cur.state ≠ .closed) {x : Call}
    (hx : c.next b x = some c') : Inv b c' added ∧
      (c'.breaker.cur.state = .closed → ∀ y ∈ c'.told, y.ticket.gen < c'.breaker.cur.gen) := by
  cases x with
  | allow wait =>
    rcases hallow : c.breaker.allow b (c.clock + wait) with ⟨t, s⟩
    simp only [next, hallow, Option.some.injEq] at hx
    subst hx
    rcases Solo.allow_spec hallow with ⟨hclosed, -⟩ | ⟨-, hopen', hwin, hwinGen, hgen, hticket⟩
    · exact absurd hclosed hopen
    refine ⟨h.moves hwin hwinGen hgen (fun hclosed => absurd hclosed hopen')
      (Nat.le_add_right _ _) ?_ (fun y hy => .inl hy), fun hclosed => absurd hclosed hopen'⟩
    intro t' ht'
    rcases mem_append.mp ht' with ht' | ht'
    · exact .inr ⟨hticket t' (Option.mem_toList.mp ht'), hopen'⟩
    · exact .inl ht'
  | record wait t o =>
    simp only [next] at hx
    split at hx
    case isFalse => cases hx
    rename_i ht
    cases hx
    obtain ⟨hwin, hwinGen, hcur⟩ :=
      Solo.record_notClosed (b := b) (c.clock + wait) t o hopen
    have htold : ∀ y ∈ (⟨t, o, c.clock + wait⟩ :: c.told : List Told),
        y ∈ c.told ∨ y.ticket ∈ c.issued := by
      intro y hy
      rcases mem_cons.mp hy with rfl | hy
      · exact .inr ht
      · exact .inl hy
    have hnew : (c.breaker.record b t o (c.clock + wait)).cur.state = .closed →
        c.breaker.cur.gen < (c.breaker.record b t o (c.clock + wait)).cur.gen := by
      intro hclosed
      rcases hcur with ⟨-, hstill⟩ | hgen
      · exact absurd hclosed hstill
      · omega
    refine ⟨h.moves hwin hwinGen ?_ hnew (Nat.le_add_right _ _) (fun t' ht' => .inl ht') htold,
      fun hclosed y hy => ?_⟩
    · dsimp only
      omega
    · refine lt_of_le_of_lt ?_ (hnew hclosed)
      rcases htold y hy with hy | hy
      · exact h.told y hy
      · exact (h.tickets _ hy).1

theorem Inv.next (h : Inv b c added) {x : Call} (hx : c.next b x = some c') :
    ∃ added', Inv b c' added' := by
  by_cases hclosed : c.breaker.cur.state = .closed
  case neg => exact ⟨added, (h.next_notClosed hclosed hx).1⟩
  cases x with
  | allow wait =>
    simp only [Course.next, Solo.allow_closed b (c.clock + wait) hclosed, Option.some.injEq] at hx
    subst hx
    refine ⟨added, h.stays rfl (Nat.le_add_right _ _) ?_ (fun y hy => .inl hy) rfl⟩
    intro t ht
    rcases mem_cons.mp ht with rfl | ht
    · exact .inr rfl
    · exact .inl ht
  | record wait t o =>
    simp only [Course.next] at hx
    split at hx
    case isFalse => cases hx
    rename_i ht
    cases hx
    by_cases hcounts : t.probe = false ∧ o ≠ .ignored ∧ c.breaker.cur.gen = t.gen
    · obtain ⟨hprobe, ho, hgen⟩ := hcounts
      exact ⟨_, h.counts hclosed (Nat.le_add_right _ _) hprobe ho hgen⟩
    · have hno : ¬Told.counts c.breaker.cur.gen ⟨t, o, c.clock + wait⟩ := by
        simp only [Told.counts, Bool.and_eq_true, decide_eq_true_eq, not_and]
        intro hgen ho
        exact hcounts ⟨(h.tickets t ht).2 hclosed hgen, ho, hgen.symm⟩
      refine ⟨added, h.stays (Solo.record_closed_eq hclosed hcounts) (Nat.le_add_right _ _)
        (fun t' ht' => .inl ht') ?_ (filter_cons_of_neg hno)⟩
      intro y hy
      rcases mem_cons.mp hy with rfl | hy
      · exact .inr ht
      · exact .inl hy

/-- While the breaker is closed no history of its generation has tripped. -/
def Quiet (failureRatio : ℚ) (minRequests : Int) (b : Breaker) (c : Course) : Prop :=
  c.breaker.cur.state = .closed →
    ∀ told, told <:+ c.told → ¬Trips failureRatio minRequests b.unit c.breaker.cur.gen told

theorem Quiet.next
    (hb : newBreaker failureRatio minRequests openTimeout halfOpenProbes window = some b)
    (h : Inv b c added) (hquiet : Quiet failureRatio minRequests b c) {x : Call}
    (hx : c.next b x = some c') : Quiet failureRatio minRequests b c' := by
  intro hclosed' told hsuffix
  by_cases hclosed : c.breaker.cur.state = .closed
  · rcases h.next_closed hb hclosed hx with ⟨y, -, -, hopen⟩ | ⟨hcur, htold⟩
    · rw [hopen] at hclosed'
      cases hclosed'
    · rw [hcur]
      rcases htold with htold | ⟨y, htold, hstays⟩
      · exact hquiet hclosed told (htold ▸ hsuffix)
      · rw [htold] at hsuffix hstays
        rcases suffix_cons_iff.mp hsuffix with rfl | hsuffix
        · exact hstays
        · exact hquiet hclosed told hsuffix
  · intro htrips
    have hpast := (h.next_notClosed hclosed hx).2 hclosed'
    cases told with
    | nil => exact htrips
    | cons y told =>
      have hlt := hpast y (hsuffix.mem mem_cons_self)
      exact absurd htrips.2.1 (Nat.ne_of_lt hlt)

theorem Reached.inv
    (hb : newBreaker failureRatio minRequests openTimeout halfOpenProbes window = some b)
    (hc : Reached b c) : (∃ added, Inv b c added) ∧ Quiet failureRatio minRequests b c := by
  induction hc with
  | init =>
    refine ⟨⟨[], inv_init b⟩, fun _ told hsuffix => ?_⟩
    obtain rfl : told = [] := suffix_nil.mp hsuffix
    exact id
  | call x _ hx ih =>
    obtain ⟨⟨added, hinv⟩, hquiet⟩ := ih
    exact ⟨hinv.next hx, hquiet.next hb hinv hx⟩

/-- A closed breaker opens at a call exactly when the call tells a failure with which, of the
outcomes of its generation that are not ignored and in the last ten slots, there are enough and
enough of them failures. Any other call leaves the snapshot as it is, and no earlier outcome of
the generation was such a failure. -/
theorem breaker_opens_iff (failureRatio : ℚ) (minRequests openTimeout halfOpenProbes : Int)
    (window : Nat) (b : Breaker)
    (hb : newBreaker failureRatio minRequests openTimeout halfOpenProbes window = some b)
    (c c' : Course) (x : Call) (hc : Reached b c) (hclosed : c.breaker.cur.state = .closed)
    (hx : c.next b x = some c') :
    (c'.breaker.cur.state = .open ↔ (∃ y, c'.told = y :: c.told) ∧
      Trips failureRatio minRequests b.unit c.breaker.cur.gen c'.told) ∧
    (c'.breaker.cur.state ≠ .open → c'.breaker.cur = c.breaker.cur) ∧
    ∀ told, told <:+ c.told →
      ¬Trips failureRatio minRequests b.unit c.breaker.cur.gen told := by
  obtain ⟨⟨added, hinv⟩, hquiet⟩ := hc.inv hb
  have hfirst := hquiet hclosed
  rcases hinv.next_closed hb hclosed hx with ⟨y, htold, htrips, hcur⟩ | ⟨hcur, htold⟩
  · refine ⟨?_, ?_, hfirst⟩
    · simp only [hcur, true_iff]
      exact ⟨⟨y, htold⟩, htrips⟩
    · simp [hcur]
  · refine ⟨?_, fun _ => hcur, hfirst⟩
    simp only [hcur, hclosed, reduceCtorEq, false_iff, not_and]
    rintro ⟨y, hy⟩
    rcases htold with htold | ⟨-, -, hstays⟩
    · exact absurd (htold.symm.trans hy) (by simp)
    · exact hstays

/-- Half of at least two requests: a success, then a failure in the same slot of time. -/
theorem breaker_opens_iff_half :
    ∃ b c c', newBreaker (1 / 2) 2 5 1 100 = some b ∧ Reached b c ∧
      c.breaker.cur = { state := .closed, gen := 0 } ∧
      c.next b (.record 1 ⟨0, false⟩ .failure) = some c' ∧ c'.breaker.cur.state = .open := by
  have hratio : ¬(1 / 2 : ℚ) ≤ 0 := by decide +kernel
  obtain ⟨b, hb, hunit⟩ : ∃ b, newBreaker (1 / 2) 2 5 1 100 = some b ∧ b.unit = 10 :=
    ⟨_, if_neg hratio, rfl⟩
  have hissued : Reached b ⟨b.fresh, 0, [⟨0, false⟩], []⟩ := .call (.allow 0) .init rfl
  have htold : Reached b ⟨b.fresh.record b ⟨0, false⟩ .success 0, 0, [⟨0, false⟩],
      [⟨⟨0, false⟩, .success, 0⟩]⟩ :=
    .call (.record 0 ⟨0, false⟩ .success) hissued rfl
  have hclosed : (b.fresh.record b ⟨0, false⟩ .success 0).cur = { state := .closed, gen := 0 } := by
    simp [Solo.record, Breaker.fresh]
  have htrips : Trips (1 / 2) 2 b.unit 0
      [⟨⟨0, false⟩, .failure, 1⟩, ⟨⟨0, false⟩, .success, 0⟩] := by
    rw [hunit]
    refine ⟨rfl, rfl, by decide, ?_⟩
    decide +kernel
  refine ⟨b, _, _, hb, htold, hclosed, rfl, ?_⟩
  refine (breaker_opens_iff (1 / 2) 2 5 1 100 b hb _ _ (.record 1 ⟨0, false⟩ .failure) htold
    ?_ rfl).1.mpr ⟨⟨_, rfl⟩, ?_⟩
  · rw [hclosed]
  · rw [hclosed]
    exact htrips

end Course

end GolangBasics.Resilient
