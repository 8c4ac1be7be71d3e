import GolangBasics.Resilient.Client

/-! Any number of calls of `Send`, `Close` and `Shutdown` on one client, one atomic operation
at a time. The account of a call says what it holds. -/
namespace GolangBasics.Resilient
open Conc

inductive Phase where
  /-- Not counted yet. -/
  | out
  /-- Counted by `enter`, which has still to read `closing`. -/
  | counted
  | admitted
  | refused
  /-- It brought the count to zero, and has still to read `closing`. -/
  | last
  /-- It has still to send on `idle`. -/
  | signalling
  | gone
  /-- Counted through the body it has returned. -/
  | handed (body : Nat)
  deriving DecidableEq

/-- What a call holds: its place in the count, the ticket it has not recorded, the slot of a
bulkhead, a timeout context it has not cancelled, and the body whose release it runs. -/
structure Account where
  phase : Phase := .out
  ticket : Option (String × Ticket) := none
  slot : Option String := none
  timeout : Bool := false
  body : Option Nat := none
  deriving DecidableEq

def Policy.slot (p : Policy) : Option String := if 0 < p.maxConcurrent then some p.name else none

def Policy.timed (p : Policy) : Bool := 0 < p.timeout

def Policy.issued (p : Policy) (t : Option Ticket) : Option (String × Ticket) :=
  if p.breaker then t.map (p.name, ·) else none

def Policy.holding (p : Policy) : Account :=
  { phase := .admitted, slot := p.slot, timeout := p.timed }

def Account.settled (a : Account) : Prop :=
  (a.phase = .out ∨ a.phase = .gone) ∧ a.ticket = none ∧ a.slot = none ∧ a.timeout = false ∧
    a.body = none

/-- The account after an operation. There is none if the operation takes what is held
already or gives back what is not held. -/
def Account.after : (op : Op) → op.Rep → Account → Option Account
  | .increment, _, a => if a.phase = .out then some { a with phase := .counted } else none
  | .decrement, n, a =>
    if a.phase = .admitted ∨ a.phase = .refused then
      some { a with phase := if n = 0 then .last else .gone }
    else none
  | .closing, closing, a =>
    match a.phase with
    | .counted => some { a with phase := if closing then .refused else .admitted }
    | .last => some { a with phase := if closing then .signalling else .gone }
    | _ => none
  | .signal, _, a => if a.phase = .signalling then some { a with phase := .gone } else none
  | .withTimeout, _, a => if a.timeout then none else some { a with timeout := true }
  | .cancel, _, a => if a.timeout then some { a with timeout := false } else none
  | .allow target, t, a =>
    if a.ticket = none then some { a with ticket := t.map (target, ·) } else none
  | .record target t _, _, a =>
    if a.ticket = some (target, t) then some { a with ticket := none } else none
  | .trySlot target, got, a | .awaitSlot target, got, a =>
    if a.slot = none then some (if got then { a with slot := some target } else a) else none
  | .freeSlot target, _, a => if a.slot = some target then some { a with slot := none } else none
  | .newBody p, body, a => if a = p.holding then some { phase := .handed body } else none
  | .onceDo body, run, a =>
    if a = {} then some (run.elim a fun p => { p.holding with body := some body }) else none
  | .onceDone body, _, a =>
    if a = { phase := .gone, body := some body } then some { phase := .gone } else none
  | .callerErr, _, a | .attemptErr, _, a | .budgetRequest _, _, a | .tryRetry _, _, a
  | .limit _, _, a | .getBody, _, a | .roundTrip .., _, a | .parseRetryAfter _, _, a
  | .readBody, _, a | .fullJitter .., _, a | .untilDeadline, _, a | .sleep _, _, a => some a

inductive Once where
  | ready | running | done
  deriving DecidableEq

structure Body where
  policy : Policy
  once : Once

/-- The counter and the flag, whether `idle` has its token, the slots in use of every
target's bulkhead, and the bodies returned so far. -/
structure ClientState where
  inFlight : Int := 0
  closing : Bool := false
  idle : Bool := false
  slots : String → Nat := fun _ => 0
  bodies : List Body := []

/-- What the outside chooses: what it replies, that a wait is given up, or nothing. -/
inductive Answer where
  | go
  | giveUp
  | ctx (e : Option CtxErr)
  | ticket (t : Option Ticket)
  | limit (e : Option String)
  | body (b : Except String (List UInt8))
  | response (r : Except TransportErr Response)
  | duration (d : Option Int)
  | bytes (bs : List UInt8)
  | jitter (d : Int)
  | yes (b : Bool)

def Client.capacity (cl : Client) (target : String) : Nat :=
  match cl.targets target with
  | some p => p.maxConcurrent.toNat
  | none => 0

def ClientState.take (m : ClientState) (target : String) : ClientState :=
  { m with slots := Function.update m.slots target (m.slots target + 1) }

def ClientState.free (m : ClientState) (target : String) : ClientState :=
  { m with slots := Function.update m.slots target (m.slots target - 1) }

def ClientState.setOnce (m : ClientState) (body : Nat) (b : Body) (once : Once) : ClientState :=
  { m with bodies := m.bodies.set body { b with once := once } }

/-- An atomic operation. There is no result while it blocks. -/
def Client.answer (cl : Client) (m : ClientState) :
    (op : Op) → Answer → Option (op.Rep × ClientState)
  | .increment, .go => some (m.inFlight + 1, { m with inFlight := m.inFlight + 1 })
  | .decrement, .go => some (m.inFlight - 1, { m with inFlight := m.inFlight - 1 })
  | .closing, .go => some (m.closing, m)
  | .signal, .go => some ((), { m with idle := true })
  | .trySlot target, .go =>
    if m.slots target < cl.capacity target then some (true, m.take target) else some (false, m)
  | .awaitSlot target, .go =>
    if m.slots target < cl.capacity target then some (true, m.take target) else none
  | .awaitSlot _, .giveUp => some (false, m)
  | .freeSlot target, .go => if 0 < m.slots target then some ((), m.free target) else none
  | .newBody p, .go => some (m.bodies.length, { m with bodies := m.bodies ++ [⟨p, .ready⟩] })
  | .onceDo body, .go =>
    match m.bodies[body]? with
    | some ⟨p, .ready⟩ => some (some p, m.setOnce body ⟨p, .ready⟩ .running)
    | some ⟨_, .done⟩ => some (none, m)
    | _ => none
  | .onceDone body, .go => m.bodies[body]?.map fun b => ((), m.setOnce body b .done)
  | .callerErr, .ctx e | .attemptErr, .ctx e => some (e, m)
  | .allow _, .ticket t => some (t, m)
  | .limit _, .limit e => some (e, m)
  | .getBody, .body b => some (b, m)
  | .roundTrip .., .response r => some (r, m)
  | .parseRetryAfter _, .duration d | .untilDeadline, .duration d => some (d, m)
  | .readBody, .bytes bs => some (bs, m)
  | .fullJitter .., .jitter d => some (d, m)
  | .tryRetry _, .yes b | .sleep _, .yes b => some (b, m)
  | .withTimeout, .go | .cancel, .go | .record .., .go | .budgetRequest _, .go => some ((), m)
  | _, _ => none

inductive Result where
  | sent (r : Except OutboundError (Response × Nat))
  | closed (body : Nat)

inductive Local where
  /-- `Send` or `SendWithRetry` is called, or `Close` of a body. -/
  | send (target : String) (req : Request) (retry : Bool)
  | close (body : Nat)
  /-- The rest of a call, with its account as long as that is in order. -/
  | call (account : Option Account) (p : Call Result)
  /-- `Shutdown`: store `closing`, load the count, wait. -/
  | shutdown
  | load
  | wait (n : Int)
  | drained
  | undrained (n : Int) (e : CtxErr)

def Client.step (cl : Client) : Local → Answer → ClientState → Option (Local × ClientState)
  | .send target req retry, .go, m =>
    some (.call (some {}) (do return .sent (← cl.send target req retry)), m)
  | .close body, .go, m => some (.call (some {}) (do Resilient.close body; return .closed body), m)
  | .call account (.ask op k), x, m =>
    (cl.answer m op x).map fun y => (.call (account.bind (Account.after op y.1)) (k y.1), y.2)
  | .shutdown, .go, m => some (.load, { m with closing := true })
  | .load, .go, m => some (if m.inFlight = 0 then .drained else .wait m.inFlight, m)
  | .wait _, .go, m => if m.idle then some (.load, { m with idle := false }) else none
  | .wait n, .ctx (some e), m => some (.undrained n e, m)
  | _, _, _ => none

def Local.starts : Local → Bool
  | .send .. | .close _ | .shutdown => true
  | _ => false

def Client.calls (cl : Client) : Threads ClientState Local Answer Empty where
  start := Local.starts
  step _ := cl.step
  env e := e.elim

end GolangBasics.Resilient
