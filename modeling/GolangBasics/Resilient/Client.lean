import GolangBasics.Conc.Prog
import GolangBasics.Resilient.Breaker

/-! `Client.send` and the calls it makes, of `libs/resilient-http-client`. A call is the tree
of what it asks of the outside: of the shared counters and channels, of the breaker, the
limiter and the budget, of the transport, the contexts and the clock. -/
namespace GolangBasics.Resilient
open Conc

inductive Kind where
  | timeout | connection | status | circuitOpen | rateLimited | bulkheadFull | shutdown
  | canceled | redirect | invalid
  deriving DecidableEq

inductive CtxErr where
  | canceled | deadlineExceeded
  deriving DecidableEq

/-- An error of `http.Client.Do`, with what `classify` asks of it. -/
structure TransportErr where
  redirect : Bool
  deadlineExceeded : Bool
  netTimeout : Bool
  text : String

inductive Cause where
  | unknownTarget
  | notAbsolute
  | ctx (e : CtxErr)
  | limiter (text : String)
  | replay (text : String)
  | transport (e : TransportErr)

structure OutboundError where
  kind : Kind
  target : String
  statusCode : Int := 0
  retryAfter : Int := 0
  body : List UInt8 := []
  err : Option Cause := none

structure Url where
  scheme : String
  host : String

inductive RequestBody where
  | nil | noBody | stream
  deriving DecidableEq

/-- `http.Request`: `idempotencyKey` is its header of that name, `getBody` says whether
`GetBody` is set. -/
structure Request where
  method : String
  url : Option Url
  idempotencyKey : String
  body : RequestBody
  getBody : Bool

/-- `http.Response`: `retryAfter` is its `Retry-After` header. -/
structure Response where
  status : Int
  retryAfter : String

/-- `policy`. The flags say whether the target has a rate limiter, a breaker and a retry
budget; it has a bulkhead if `maxConcurrent` is positive. Durations are nanoseconds. -/
structure Policy where
  name : String
  timeout : Int
  maxConcurrent : Int
  maxConcurrentWait : Int
  retryMaxAttempts : Int
  retryBaseDelay : Int
  retryMaxDelay : Int
  limiter : Bool
  breaker : Bool
  budget : Bool

structure Client where
  targets : String → Option Policy
  named : ∀ {target p}, targets target = some p → p.name = target

inductive Op where
  /-- `Err` of the caller's context and of the attempt's. -/
  | callerErr
  | attemptErr
  /-- `inFlight.Add(1)`, `inFlight.Add(-1)` and `closing.Load`. -/
  | increment
  | decrement
  | closing
  /-- The send on `idle` that does not wait. -/
  | signal
  | budgetRequest (target : String)
  | tryRetry (target : String)
  | withTimeout
  | cancel
  | allow (target : String)
  | record (target : String) (t : Ticket) (o : Outcome)
  | limit (target : String)
  /-- The send on the bulkhead's channel that does not wait, the one that waits for the timer
  or the context, and the receive. -/
  | trySlot (target : String)
  | awaitSlot (target : String)
  | freeSlot (target : String)
  | getBody
  /-- `http.Client.Do` of attempt `n`, with the copy of the body that `GetBody` gave. -/
  | roundTrip (target : String) (n : Nat) (body : Option (List UInt8))
  | parseRetryAfter (header : String)
  | readBody
  | fullJitter (retry : Nat) (base capDelay : Int)
  /-- The time to the deadline of the caller's context, if it has one. -/
  | untilDeadline
  | sleep (d : Int)
  /-- A new `releaseBody`, and the two ends of `once.Do`. -/
  | newBody (p : Policy)
  | onceDo (body : Nat)
  | onceDone (body : Nat)

/-- The replies. `onceDo` gives what the release was made for, if it is to run. -/
abbrev Op.Rep : Op → Type
  | .callerErr | .attemptErr => Option CtxErr
  | .increment | .decrement | .fullJitter .. => Int
  | .closing | .tryRetry _ | .trySlot _ | .awaitSlot _ | .sleep _ => Bool
  | .allow _ => Option Ticket
  | .limit _ => Option String
  | .getBody => Except String (List UInt8)
  | .roundTrip .. => Except TransportErr Response
  | .parseRetryAfter _ | .untilDeadline => Option Int
  | .readBody => List UInt8
  | .newBody _ => Nat
  | .onceDo _ => Option Policy
  | .signal | .budgetRequest _ | .withTimeout | .cancel | .record .. | .freeSlot _
  | .onceDone _ => Unit

abbrev Call := Prog Op Op.Rep

abbrev ask (op : Op) : Call op.Rep := Prog.request op

def errBodyKeep : Nat := 4 * 2 ^ 10

def idempotent (req : Request) : Bool :=
  req.method ∈ ["", "GET", "HEAD", "OPTIONS", "PUT", "DELETE"] || req.idempotencyKey != ""

def retryableStatus (code : Int) : Bool :=
  if code = 408 ∨ code = 425 ∨ code = 429 then true
  else if code = 501 ∨ code = 505 then false
  else 500 ≤ code && code ≤ 599

def retryable (err : OutboundError) : Bool :=
  match err.kind with
  | .timeout | .connection => true
  | .status => retryableStatus err.statusCode
  | _ => false

def leave : Call Unit := do
  let n ← ask .decrement
  if n = 0 then
    if ← ask .closing then
      ask .signal

def enter : Call Bool := do
  let _ ← ask .increment
  if ← ask .closing then
    leave
    return false
  return true

def Policy.allow (p : Policy) : Call (Option Ticket) :=
  if p.breaker then ask (.allow p.name) else pure (some ⟨0, false⟩)

def Policy.record (p : Policy) (t : Ticket) (o : Outcome) : Call Unit :=
  if p.breaker then ask (.record p.name t o) else pure ()

def Policy.wait (p : Policy) : Call (Option String) :=
  if p.limiter then ask (.limit p.name) else pure none

def Policy.acquire (p : Policy) : Call Bool :=
  if p.maxConcurrent ≤ 0 then pure true
  else do
    if ← ask (.trySlot p.name) then
      return true
    if p.maxConcurrentWait ≤ 0 then
      return false
    if (← ask .attemptErr).isSome then
      return false
    ask (.awaitSlot p.name)

def Policy.withTimeout (p : Policy) : Call Unit :=
  if 0 < p.timeout then ask .withTimeout else pure ()

def Policy.cancel (p : Policy) : Call Unit :=
  if 0 < p.timeout then ask .cancel else pure ()

def Policy.release (p : Policy) : Call Unit := do
  if 0 < p.maxConcurrent then
    ask (.freeSlot p.name)
  p.cancel

def Policy.fail (p : Policy) (kind : Kind) (err : Option Cause) :
    Call (Except OutboundError Response) := do
  p.cancel
  return .error { kind := kind, target := p.name, err := err }

def classify (err : TransportErr) : Call (Kind × Outcome) := do
  if err.redirect then
    return (.redirect, .success)
  if (← ask .callerErr).isSome then
    return (.canceled, .ignored)
  if (← ask .attemptErr) = some CtxErr.deadlineExceeded then
    return (.timeout, .failure)
  if err.deadlineExceeded || err.netTimeout then
    return (.timeout, .failure)
  return (.connection, .failure)

/-- The copy of the body that an attempt sends, if it is not the first. -/
def replay (req : Request) (n : Nat) : Call (Except String (Option (List UInt8))) :=
  if 1 < n ∧ req.getBody then do
    match ← ask .getBody with
    | .ok body => return .ok (some body)
    | .error e => return .error e
  else pure (.ok none)

def Policy.answered (p : Policy) (t : Ticket) (resp : Response) :
    Call (Except OutboundError Response) := do
  p.record t (if 500 ≤ resp.status then .failure else .success)
  if resp.status < 400 then
    return .ok resp
  let retryAfter ← ask (.parseRetryAfter resp.retryAfter)
  let body ← ask .readBody
  p.release
  return .error {
    kind := .status
    target := p.name
    statusCode := resp.status
    retryAfter := Option.getD retryAfter 0
    body := List.take errBodyKeep body }

/-- `attempt` with a ticket and a slot of the bulkhead. -/
def Policy.exchange (p : Policy) (req : Request) (n : Nat) (t : Ticket) :
    Call (Except OutboundError Response) := do
  match ← replay req n with
  | .error e =>
    p.release
    p.record t .ignored
    return .error { kind := .invalid, target := p.name, err := some (.replay e) }
  | .ok body =>
    match ← ask (.roundTrip p.name n body) with
    | .error e =>
      let (kind, o) ← classify e
      p.release
      p.record t o
      return .error { kind := kind, target := p.name, err := some (.transport e) }
    | .ok resp => p.answered t resp

def Policy.refused (p : Policy) (t : Ticket) (kind : Kind) (err : Option Cause) :
    Call (Except OutboundError Response) := do
  p.record t .ignored
  if (← ask .callerErr).isSome then
    let e ← ask .callerErr
    p.fail .canceled (Option.map Cause.ctx e)
  else
    p.fail kind err

def Policy.attempt (p : Policy) (req : Request) (n : Nat) :
    Call (Except OutboundError Response) := do
  p.withTimeout
  match ← p.allow with
  | none => p.fail .circuitOpen none
  | some t =>
    match ← p.wait with
    | some e => p.refused t .rateLimited (some (.limiter e))
    | none =>
      if ← p.acquire then
        p.exchange req n t
      else
        p.refused t .bulkheadFull none

def sleep (d : Int) : Call Bool :=
  if d ≤ 0 then do
    return (← ask .callerErr).isNone
  else ask (.sleep d)

def Policy.tryRetry (p : Policy) : Call Bool :=
  if p.budget then ask (.tryRetry p.name) else pure true

/-- One round of the loop of `send`, up to where an attempt has failed. -/
def Policy.round (p : Policy) (req : Request) (n : Nat)
    (failed : OutboundError → Call (Except OutboundError Response)) :
    Call (Except OutboundError Response) := do
  match ← ask .callerErr with
  | some e => return .error { kind := .canceled, target := p.name, err := some (.ctx e) }
  | none =>
    match ← p.attempt req n with
    | .ok resp => return .ok resp
    | .error oe => failed oe

/-- The loop of `send`, at attempt `n` with `left` more to make. -/
def Policy.tries (p : Policy) (req : Request) :
    (left n : Nat) → Call (Except OutboundError Response)
  | 0, n => p.round req n fun oe => return .error oe
  | left + 1, n => p.round req n fun oe => do
    if !retryable oe then
      return .error oe
    let jitter ← ask (.fullJitter n p.retryBaseDelay p.retryMaxDelay)
    let delay : Int := max jitter oe.retryAfter
    if p.retryMaxDelay < oe.retryAfter then
      return .error oe
    if Option.any (· ≤ delay) (← ask .untilDeadline) then
      return .error oe
    if !(← p.tryRetry) then
      return .error oe
    if !(← sleep delay) then
      let e ← ask .callerErr
      return .error { kind := .canceled, target := p.name, err := Option.map Cause.ctx e }
    p.tries req left (n + 1)

def Policy.attempts (p : Policy) (req : Request) (retry : Bool) : Nat :=
  if retry ∧ 1 < p.retryMaxAttempts ∧ idempotent req ∧
      (req.body = .nil ∨ req.body = .noBody ∨ req.getBody) then
    p.retryMaxAttempts.toNat
  else 1

/-- The URL is an absolute one of http or https. -/
def Request.absolute (req : Request) : Bool :=
  match req.url with
  | none => false
  | some url => (url.scheme == "http" || url.scheme == "https") && url.host != ""

/-- `send`: a response comes with the `releaseBody` around its body. -/
def Client.send (cl : Client) (target : String) (req : Request) (retry : Bool) :
    Call (Except OutboundError (Response × Nat)) :=
  match cl.targets target with
  | none => pure (.error { kind := .invalid, target := target, err := some .unknownTarget })
  | some p =>
    if !req.absolute then
      pure (.error { kind := .invalid, target := target, err := some .notAbsolute })
    else do
      if !(← enter) then
        return .error { kind := .shutdown, target := target }
      if p.budget then
        ask (.budgetRequest p.name)
      match ← p.tries req (p.attempts req retry - 1) 1 with
      | .ok resp =>
        let body ← ask (.newBody p)
        return .ok (resp, body)
      | .error oe =>
        leave
        return .error oe

def close (body : Nat) : Call Unit := do
  match ← ask (.onceDo body) with
  | none => return ()
  | some p =>
    p.release
    leave
    ask (.onceDone body)

end GolangBasics.Resilient
