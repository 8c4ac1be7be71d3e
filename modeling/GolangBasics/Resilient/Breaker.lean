import GolangBasics.Conc.Threads
import GolangBasics.Resilient.Window

/-! The circuit breaker of `libs/resilient-http-client`. A thread is one request: it calls
`allow`, and with the ticket it got it calls `record` at most once. Every load and
compare-and-swap of the snapshot pointer, every clock read and the locked window section is
a step of its own. -/
namespace GolangBasics.Resilient
open Conc

inductive BreakerState where
  | closed | open | halfOpen
  deriving DecidableEq

inductive Outcome where
  | success | failure | ignored
  deriving DecidableEq

structure Ticket where
  gen : Nat
  probe : Bool
  deriving DecidableEq

/-- Times are nanoseconds; a snapshot that is not open has the zero `openedAt`. -/
structure Snapshot where
  state : BreakerState
  gen : Nat
  probes : Int := 0
  successes : Int := 0
  openedAt : Nat := 0
  deriving DecidableEq

/-- A pointer to a snapshot. Snapshots never change, so it carries what it points to. -/
structure Ptr where
  addr : Nat
  val : Snapshot
  deriving DecidableEq

/-- The fields of `breaker` that do not change. `reaches requests failures` is the comparison
`float64(failures) >= ratio*float64(requests)`, `length` the window's length. -/
structure Breaker where
  reaches : Int → Int → Bool
  minRequests : Int
  openTimeout : Int
  maxProbes : Int
  length : Nat

structure Verdict where
  thread : Nat
  gen : Nat
  outcome : Outcome
  deriving DecidableEq

structure Transition where
  thread : Nat
  source : BreakerState
  target : BreakerState
  gen : Nat
  deriving DecidableEq

structure Added where
  gen : Nat
  now : Nat
  failed : Bool
  deriving DecidableEq

/-- The shared memory, the clock, and the exported state gauge and transition counters. The
last three fields only record what happened, newest first. -/
structure Shared where
  cur : Ptr
  win : Window
  winGen : Nat
  clock : Nat
  gauge : BreakerState
  counters : BreakerState → BreakerState → Nat
  verdicts : List Verdict
  transitions : List Transition
  added : List Added

def Breaker.init (b : Breaker) : Shared where
  cur := ⟨0, { state := .closed, gen := 0 }⟩
  win := newWindow b.length
  winGen := 0
  clock := 0
  gauge := .closed
  counters := fun _ _ => 0
  verdicts := []
  transitions := []
  added := []

def Shared.compareAndSwap (m : Shared) (s : Ptr) (next : Snapshot) : Option Shared :=
  if m.cur.addr = s.addr then some { m with cur := ⟨m.cur.addr + 1, next⟩ } else none

def Shared.swap (m : Shared) (i : Nat) (s : Ptr) (next : Snapshot) : Option Shared :=
  (m.compareAndSwap s next).map fun m =>
    { m with transitions := ⟨i, s.val.state, next.state, next.gen⟩ :: m.transitions }

/-- Where a thread is. The comments name the step it takes next. -/
inductive Pc where
  /-- `allow`: load the snapshot. -/
  | allow
  /-- `allow`, open: read the clock. -/
  | allowNow (s : Ptr)
  /-- `allow`, open for long enough: swap to half-open. -/
  | allowOpen (s : Ptr)
  /-- `allow`, half-open: compare-and-swap for a probe slot. -/
  | allowProbe (s : Ptr)
  | rejected
  /-- `allow` has returned a ticket: call `record`. -/
  | held (t : Ticket)
  /-- `record`: load the snapshot. -/
  | record (t : Ticket) (failed : Bool)
  /-- `record`: read the clock. -/
  | recordNow (t : Ticket) (failed : Bool) (s : Ptr)
  /-- `record`: the locked section. -/
  | recordLock (t : Ticket) (failed : Bool) (s : Ptr) (now : Nat)
  /-- `record`, past the locked section: return, or swap to open. -/
  | recordTrip (t : Ticket) (failed : Bool) (s : Ptr) (now : Nat) (requests failures : Int)
  /-- `recordProbe`: load the snapshot. -/
  | probe (t : Ticket) (o : Outcome)
  /-- `recordProbe` of a failure: read the clock. -/
  | probeNow (t : Ticket) (s : Ptr)
  /-- `recordProbe`: compare-and-swap or swap. -/
  | probeSwap (t : Ticket) (o : Outcome) (s : Ptr) (next : Snapshot)
  /-- `onChange`: count the transition. The ticket is what `allow` is about to return. -/
  | notify (source target : BreakerState) (t : Option Ticket)
  /-- `onChange`: load the state. -/
  | notifyState (t : Option Ticket)
  /-- `onChange`: set the gauge. -/
  | notifyGauge (state : BreakerState) (t : Option Ticket)
  | recorded
  deriving DecidableEq

inductive Choice where
  | go
  | finish (o : Outcome)

def Pc.after : Option Ticket → Pc
  | some t => .held t
  | none => .recorded

/-- The locked section of `record`: what the window and its generation become, and the sums. -/
def lockedSection (win : Window) (winGen : Nat) (x : Added) : Window × Nat × Int × Int :=
  let win := if winGen ≠ x.gen then win.reset else win
  let win := win.add x.now 1 (if x.failed then 1 else 0)
  (win, x.gen, win.sum x.now)

def Breaker.settle (b : Breaker) (o : Outcome) (s : Snapshot) : Snapshot :=
  match o with
  | .success =>
    if b.maxProbes ≤ s.successes + 1 then { state := .closed, gen := s.gen + 1 }
    else { s with successes := s.successes + 1 }
  | _ => { s with probes := s.probes - 1 }

def Breaker.step (b : Breaker) (i : Nat) : Pc → Choice → Shared → Option (Pc × Shared)
  | .allow, .go, m =>
    match m.cur.val.state with
    | .closed => some (.held ⟨m.cur.val.gen, false⟩, m)
    | .open => some (.allowNow m.cur, m)
    | .halfOpen =>
      if b.maxProbes ≤ m.cur.val.probes then some (.rejected, m) else some (.allowProbe m.cur, m)
  | .allowNow s, .go, m =>
    if (m.clock : Int) - s.val.openedAt < b.openTimeout then some (.rejected, m)
    else some (.allowOpen s, m)
  | .allowOpen s, .go, m =>
    match m.swap i s { state := .halfOpen, gen := s.val.gen + 1, probes := 1 } with
    | some m => some (.notify .open .halfOpen (some ⟨s.val.gen + 1, true⟩), m)
    | none => some (.allow, m)
  | .allowProbe s, .go, m =>
    match m.compareAndSwap s { s.val with probes := s.val.probes + 1 } with
    | some m => some (.held ⟨s.val.gen, true⟩, m)
    | none => some (.allow, m)
  | .held t, .finish o, m =>
    if t.probe then some (.probe t o, m)
    else
      match o with
      | .ignored => some (.recorded, m)
      | .success => some (.record t false, m)
      | .failure => some (.record t true, m)
  | .record t failed, .go, m =>
    if m.cur.val.state ≠ .closed ∨ m.cur.val.gen ≠ t.gen then some (.recorded, m)
    else some (.recordNow t failed m.cur, m)
  | .recordNow t failed s, .go, m => some (.recordLock t failed s m.clock, m)
  | .recordLock t failed s now, .go, m =>
    let x : Added := ⟨s.val.gen, now, failed⟩
    let (win, winGen, requests, failures) := lockedSection m.win m.winGen x
    some (.recordTrip t failed s now requests failures,
      { m with win := win, winGen := winGen, added := x :: m.added })
  | .recordTrip _ failed s now requests failures, .go, m =>
    if failed ∧ b.minRequests ≤ requests ∧ b.reaches requests failures then
      match m.swap i s { state := .open, gen := s.val.gen + 1, openedAt := now } with
      | some m => some (.notify .closed .open none, m)
      | none => some (.recorded, m)
    else some (.recorded, m)
  | .probe t o, .go, m =>
    if m.cur.val.state ≠ .halfOpen ∨ m.cur.val.gen ≠ t.gen then some (.recorded, m)
    else
      match o with
      | .failure => some (.probeNow t m.cur, m)
      | o => some (.probeSwap t o m.cur (b.settle o m.cur.val), m)
  | .probeNow t s, .go, m =>
    some (.probeSwap t .failure s { state := .open, gen := s.val.gen + 1, openedAt := m.clock }, m)
  | .probeSwap t o s next, .go, m =>
    let verdict : Verdict := ⟨i, t.gen, o⟩
    if next.state ≠ s.val.state then
      match m.swap i s next with
      | some m => some (.notify s.val.state next.state none,
          { m with verdicts := verdict :: m.verdicts })
      | none => some (.probe t o, m)
    else
      match m.compareAndSwap s next with
      | some m => some (.recorded, { m with verdicts := verdict :: m.verdicts })
      | none => some (.probe t o, m)
  | .notify source target t, .go, m =>
    some (.notifyState t, { m with
      counters := Function.update m.counters source
        (Function.update (m.counters source) target (m.counters source target + 1)) })
  | .notifyState t, .go, m => some (.notifyGauge m.cur.val.state t, m)
  | .notifyGauge state t, .go, m => some (.after t, { m with gauge := state })
  | _, _, _ => none

def Breaker.requests (b : Breaker) : Threads Shared Pc Choice Nat where
  start l := l = .allow
  step := b.step
  env d m := some { m with clock := m.clock + d }

end GolangBasics.Resilient
