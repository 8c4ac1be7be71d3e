import GolangBasics.Resilient.Counting
import Mathlib.Algebra.Order.Field.Rat

/-! The breaker with its callers one at a time: `allow` and `record` as functions, and that a
request which runs alone does what they say. -/
namespace GolangBasics.Resilient
open Conc Threads

/-- `newBreaker`, from the fields of the target's configuration that it reads, with the ratio
as a rational number. -/
def newBreaker (failureRatio : ℚ) (minRequests openTimeout halfOpenProbes : Int) (window : Nat) :
    Option Breaker :=
  if failureRatio ≤ 0 then none
  else some {
    reaches := fun requests failures => failureRatio * requests ≤ failures
    minRequests := minRequests
    openTimeout := openTimeout
    maxProbes := halfOpenProbes
    length := window }

structure Solo where
  cur : Snapshot
  win : Window
  winGen : Nat

def Breaker.fresh (b : Breaker) : Solo := ⟨{ state := .closed, gen := 0 }, newWindow b.length, 0⟩

namespace Solo

def allow (b : Breaker) (s : Solo) (now : Nat) : Option Ticket × Solo :=
  match s.cur.state with
  | .closed => (some ⟨s.cur.gen, false⟩, s)
  | .open =>
    if (now : Int) - s.cur.openedAt < b.openTimeout then (none, s)
    else
      let next : Snapshot := { state := .halfOpen, gen := s.cur.gen + 1, probes := 1 }
      (some ⟨next.gen, true⟩, { s with cur := next })
  | .halfOpen =>
    if b.maxProbes ≤ s.cur.probes then (none, s)
    else (some ⟨s.cur.gen, true⟩, { s with cur := { s.cur with probes := s.cur.probes + 1 } })

def recordProbe (b : Breaker) (s : Solo) (t : Ticket) (o : Outcome) (now : Nat) : Solo :=
  if s.cur.state ≠ .halfOpen ∨ s.cur.gen ≠ t.gen then s
  else
    match o with
    | .ignored => { s with cur := { s.cur with probes := s.cur.probes - 1 } }
    | .failure => { s with cur := { state := .open, gen := s.cur.gen + 1, openedAt := now } }
    | .success =>
      if b.maxProbes ≤ s.cur.successes + 1 then
        { s with cur := { state := .closed, gen := s.cur.gen + 1 } }
      else { s with cur := { s.cur with successes := s.cur.successes + 1 } }

def record (b : Breaker) (s : Solo) (t : Ticket) (o : Outcome) (now : Nat) : Solo :=
  if t.probe then s.recordProbe b t o now
  else if o = .ignored then s
  else if s.cur.state ≠ .closed ∨ s.cur.gen ≠ t.gen then s
  else
    let failed := o = .failure
    let win := if s.winGen ≠ s.cur.gen then s.win.reset else s.win
    let win := win.add now 1 (if failed then 1 else 0)
    let (requests, failures) := win.sum now
    if failed ∧ b.minRequests ≤ requests ∧ b.reaches requests failures then
      ⟨{ state := .open, gen := s.cur.gen + 1, openedAt := now }, win, s.cur.gen⟩
    else ⟨s.cur, win, s.cur.gen⟩

/-- `record` of an outcome that counts, over the locked section. -/
theorem record_counted (b : Breaker) (s : Solo) (t : Ticket) (o : Outcome) (now : Nat)
    (hprobe : t.probe = false) (ho : o ≠ .ignored) (hstate : s.cur.state = .closed)
    (hgen : s.cur.gen = t.gen) :
    s.record b t o now =
      let x : Added := ⟨s.cur.gen, now, decide (o = .failure)⟩
      let sums := (lockedSection s.win s.winGen x).2.2
      ⟨if x.failed ∧ b.minRequests ≤ sums.1 ∧ b.reaches sums.1 sums.2 then
          { state := .open, gen := s.cur.gen + 1, openedAt := now }
        else s.cur, (lockedSection s.win s.winGen x).1, s.cur.gen⟩ := by
  simp only [record, hprobe, ho, hstate, hgen, Bool.false_eq_true, ne_eq, not_true_eq_false,
    or_false, if_false, lockedSection, decide_eq_true_eq]
  split_ifs <;> rfl

end Solo

def Shared.solo (m : Shared) : Solo := ⟨m.cur.val, m.win, m.winGen⟩

variable {b : Breaker} {i : Nat} {m : Shared}

/-- A request that runs on its own ends at `l` with the breaker `s`, in no time. -/
def Breaker.Ends (b : Breaker) (i : Nat) (l : Pc) (m : Shared) (l' : Pc) (s : Solo) : Prop :=
  ∃ m', b.requests.Alone i l m l' m' ∧ m'.solo = s ∧ m'.clock = m.clock

theorem Ends.refl (l : Pc) (m : Shared) : b.Ends i l m l m.solo := ⟨m, .refl l m, rfl, rfl⟩

theorem Ends.step {l l' l'' : Pc} {m' : Shared} {s : Solo} (x : Choice)
    (h : b.step i l x m = some (l', m')) (hclock : m'.clock = m.clock)
    (hrest : b.Ends i l' m' l'' s) : b.Ends i l m l'' s := by
  obtain ⟨m'', halone, hsolo, hend⟩ := hrest
  exact ⟨m'', .step x h halone, hsolo, hend.trans hclock⟩

def Shared.replaced (m : Shared) (next : Snapshot) : Shared :=
  { m with cur := ⟨m.cur.addr + 1, next⟩ }

def Shared.changed (m : Shared) (i : Nat) (next : Snapshot) : Shared :=
  { m.replaced next with
    transitions := ⟨i, m.cur.val.state, next.state, next.gen⟩ :: m.transitions }

theorem compareAndSwap_cur (next : Snapshot) :
    m.compareAndSwap m.cur next = some (m.replaced next) := by
  simp [Shared.compareAndSwap, Shared.replaced]

theorem swap_cur (next : Snapshot) : m.swap i m.cur next = some (m.changed i next) := by
  rw [Shared.swap, compareAndSwap_cur]
  rfl

theorem ends_notify (source target : BreakerState) (t : Option Ticket) (m : Shared) :
    b.Ends i (.notify source target t) m (.after t) m.solo := by
  refine Ends.step .go rfl rfl ?_
  refine Ends.step .go rfl rfl ?_
  refine Ends.step .go rfl rfl ?_
  exact Ends.refl _ _

def Pc.answered : Option Ticket → Pc
  | some t => .held t
  | none => .rejected

/-- `allow` of a request that runs alone. -/
theorem ends_allow (b : Breaker) (i : Nat) (m : Shared) :
    b.Ends i .allow m (.answered (m.solo.allow b m.clock).1) (m.solo.allow b m.clock).2 := by
  unfold Solo.allow Shared.solo
  cases hstate : m.cur.val.state with
  | closed =>
    have hload : b.step i .allow .go m = some (.held ⟨m.cur.val.gen, false⟩, m) := by
      simp [Breaker.step, hstate]
    exact Ends.step .go hload rfl (Ends.refl _ _)
  | «open» =>
    have hload : b.step i .allow .go m = some (.allowNow m.cur, m) := by
      simp [Breaker.step, hstate]
    refine Ends.step .go hload rfl ?_
    by_cases hearly : (m.clock : Int) - m.cur.val.openedAt < b.openTimeout
    · have hnow : b.step i (.allowNow m.cur) .go m = some (.rejected, m) := by
        simp [Breaker.step, hearly]
      simp only [hearly, if_true]
      exact Ends.step .go hnow rfl (Ends.refl _ _)
    · have hnow : b.step i (.allowNow m.cur) .go m = some (.allowOpen m.cur, m) := by
        simp [Breaker.step, hearly]
      refine Ends.step .go hnow rfl ?_
      have hswap : b.step i (.allowOpen m.cur) .go m =
          some (.notify .open .halfOpen (some ⟨m.cur.val.gen + 1, true⟩),
            m.changed i { state := .halfOpen, gen := m.cur.val.gen + 1, probes := 1 }) := by
        simp only [Breaker.step, swap_cur]
      simp only [hearly, if_false]
      exact Ends.step .go hswap rfl (ends_notify _ _ _ _)
  | halfOpen =>
    by_cases hfull : b.maxProbes ≤ m.cur.val.probes
    · have hload : b.step i .allow .go m = some (.rejected, m) := by
        simp [Breaker.step, hstate, hfull]
      simp only [hfull, if_true]
      exact Ends.step .go hload rfl (Ends.refl _ _)
    · have hload : b.step i .allow .go m = some (.allowProbe m.cur, m) := by
        simp [Breaker.step, hstate, hfull]
      refine Ends.step .go hload rfl ?_
      have hswap : b.step i (.allowProbe m.cur) .go m = some (.held ⟨m.cur.val.gen, true⟩,
          m.replaced { m.cur.val with probes := m.cur.val.probes + 1 }) := by
        simp only [Breaker.step, compareAndSwap_cur]
      simp only [hfull, if_false]
      exact Ends.step .go hswap rfl (Ends.refl _ _)

/-- `recordProbe` from where the snapshot it read is still the current one. -/
theorem ends_probeSwap (t : Ticket) (o : Outcome) (next : Snapshot) (m : Shared) :
    b.Ends i (.probeSwap t o m.cur next) m .recorded { m.solo with cur := next } := by
  by_cases hsame : next.state = m.cur.val.state
  · have hswap : b.step i (.probeSwap t o m.cur next) .go m = some (.recorded,
        { m.replaced next with verdicts := ⟨i, t.gen, o⟩ :: m.verdicts }) := by
      simp only [Breaker.step, hsame, ne_eq, not_true_eq_false, if_false, compareAndSwap_cur]
      rfl
    exact Ends.step .go hswap rfl (Ends.refl _ _)
  · have hswap : b.step i (.probeSwap t o m.cur next) .go m =
        some (.notify m.cur.val.state next.state none,
          { m.changed i next with verdicts := ⟨i, t.gen, o⟩ :: m.verdicts }) := by
      simp only [Breaker.step, hsame, ne_eq, not_false_eq_true, if_true, swap_cur]
      rfl
    exact Ends.step .go hswap rfl (ends_notify _ _ none _)

theorem ends_probe (t : Ticket) (o : Outcome) (m : Shared) :
    b.Ends i (.probe t o) m .recorded (m.solo.recordProbe b t o m.clock) := by
  unfold Solo.recordProbe
  by_cases hstale : m.solo.cur.state ≠ .halfOpen ∨ m.solo.cur.gen ≠ t.gen
  · have hload : b.step i (.probe t o) .go m = some (.recorded, m) := if_pos hstale
    rw [if_pos hstale]
    exact Ends.step .go hload rfl (Ends.refl _ _)
  · rw [if_neg hstale]
    cases o with
    | failure =>
      have hload : b.step i (.probe t .failure) .go m = some (.probeNow t m.cur, m) :=
        if_neg hstale
      refine Ends.step .go hload rfl ?_
      exact Ends.step .go rfl rfl (ends_probeSwap t _ _ m)
    | ignored =>
      have hload : b.step i (.probe t .ignored) .go m =
          some (.probeSwap t .ignored m.cur (b.settle .ignored m.cur.val), m) := if_neg hstale
      exact Ends.step .go hload rfl (ends_probeSwap t _ _ m)
    | success =>
      have hload : b.step i (.probe t .success) .go m =
          some (.probeSwap t .success m.cur (b.settle .success m.cur.val), m) := if_neg hstale
      have hend := Ends.step .go hload rfl (ends_probeSwap t _ _ m)
      simp only [Breaker.settle] at hend
      by_cases hlast : b.maxProbes ≤ m.cur.val.successes + 1
      · rw [if_pos hlast] at hend
        exact (if_pos hlast).symm ▸ hend
      · rw [if_neg hlast] at hend
        exact (if_neg hlast).symm ▸ hend

theorem ends_recordTrip (t : Ticket) (failed : Bool) (now : Nat) (requests failures : Int)
    (m : Shared) :
    b.Ends i (.recordTrip t failed m.cur now requests failures) m .recorded
      { m.solo with
        cur := if failed ∧ b.minRequests ≤ requests ∧ b.reaches requests failures then
            { state := .open, gen := m.cur.val.gen + 1, openedAt := now }
          else m.cur.val } := by
  by_cases htrips : failed ∧ b.minRequests ≤ requests ∧ b.reaches requests failures
  · have hswap : b.step i (.recordTrip t failed m.cur now requests failures) .go m =
        some (.notify .closed .open none,
          m.changed i { state := .open, gen := m.cur.val.gen + 1, openedAt := now }) := by
      simp only [Breaker.step, htrips, swap_cur]
      rfl
    rw [if_pos htrips]
    exact Ends.step .go hswap rfl (ends_notify _ _ none _)
  · have hend : b.step i (.recordTrip t failed m.cur now requests failures) .go m =
        some (.recorded, m) := if_neg htrips
    rw [if_neg htrips]
    exact Ends.step .go hend rfl (Ends.refl _ _)

def Shared.counted (m : Shared) (x : Added) : Shared :=
  { m with
    win := (lockedSection m.win m.winGen x).1
    winGen := (lockedSection m.win m.winGen x).2.1
    added := x :: m.added }

theorem ends_recordCounted (t : Ticket) (o : Outcome) (m : Shared) (hprobe : t.probe = false)
    (ho : o ≠ .ignored) :
    b.Ends i (.record t (decide (o = .failure))) m .recorded (m.solo.record b t o m.clock) := by
  by_cases hstale : m.solo.cur.state ≠ .closed ∨ m.solo.cur.gen ≠ t.gen
  · have hload : b.step i (.record t (decide (o = .failure))) .go m = some (.recorded, m) :=
      if_pos hstale
    have hsame : m.solo.record b t o m.clock = m.solo := by
      simp only [Solo.record, hprobe, ho, hstale, Bool.false_eq_true, if_true, if_false]
    rw [hsame]
    exact Ends.step .go hload rfl (Ends.refl _ _)
  · have hload : b.step i (.record t (decide (o = .failure))) .go m =
        some (.recordNow t (decide (o = .failure)) m.cur, m) := if_neg hstale
    have hnow : b.step i (.recordNow t (decide (o = .failure)) m.cur) .go m =
        some (.recordLock t (decide (o = .failure)) m.cur m.clock, m) := rfl
    have hlock : b.step i (.recordLock t (decide (o = .failure)) m.cur m.clock) .go m =
        some (.recordTrip t (decide (o = .failure)) m.cur m.clock
          (lockedSection m.win m.winGen ⟨m.cur.val.gen, m.clock, decide (o = .failure)⟩).2.2.1
          (lockedSection m.win m.winGen ⟨m.cur.val.gen, m.clock, decide (o = .failure)⟩).2.2.2,
          m.counted ⟨m.cur.val.gen, m.clock, decide (o = .failure)⟩) := rfl
    push Not at hstale
    rw [Solo.record_counted b m.solo t o m.clock hprobe ho hstale.1 hstale.2]
    refine Ends.step .go hload rfl (Ends.step .go hnow rfl (Ends.step .go hlock rfl ?_))
    exact ends_recordTrip t _ _ _ _ (m.counted ⟨m.cur.val.gen, m.clock, decide (o = .failure)⟩)

/-- `record` of the outcome `o` by a request that runs alone. -/
theorem ends_record (b : Breaker) (i : Nat) (t : Ticket) (o : Outcome) (m : Shared) :
    ∃ l, b.step i (.held t) (.finish o) m = some (l, m) ∧
      b.Ends i l m .recorded (m.solo.record b t o m.clock) := by
  by_cases hprobe : t.probe = true
  · have hfinish : b.step i (.held t) (.finish o) m = some (.probe t o, m) := by
      simp [Breaker.step, hprobe]
    rw [Solo.record, if_pos hprobe]
    exact ⟨_, hfinish, ends_probe t o m⟩
  · have hfalse : t.probe = false := by simpa using hprobe
    by_cases ho : o = .ignored
    · have hfinish : b.step i (.held t) (.finish o) m = some (.recorded, m) := by
        simp [Breaker.step, hfalse, ho]
      rw [Solo.record, if_neg hprobe, if_pos ho]
      exact ⟨_, hfinish, Ends.refl _ _⟩
    · have hfinish : b.step i (.held t) (.finish o) m =
          some (.record t (decide (o = .failure)), m) := by
        cases o <;> simp_all [Breaker.step]
      exact ⟨_, hfinish, ends_recordCounted t o m hfalse ho⟩

end GolangBasics.Resilient
