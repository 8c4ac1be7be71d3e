import GolangBasics.Tasks.Outbox.Table

/-! The outbox relay: one pass of `Relay.relayOnce` as a program over the database and the
broker, and the system of any number of passes by any number of replicas. -/
namespace GolangBasics.Tasks.Outbox
open Conc

/-- `outbox.Config`. Durations are nanoseconds. -/
structure Config where
  topic : String
  batchSize : Int
  maxAttempts : Int
  rejectBackoff : Int

def Config.withDefaults (c : Config) : Config where
  topic := c.topic
  batchSize := if c.batchSize ≤ 0 then 100 else c.batchSize
  maxAttempts := if c.maxAttempts ≤ 0 then 10 else c.maxAttempts
  rejectBackoff := if c.rejectBackoff ≤ 0 then 10 ^ 9 else c.rejectBackoff

structure Relay where
  hasPublisher : Bool
  cfg : Config

def newRelay (hasPublisher : Bool) (cfg : Config) : Relay := ⟨hasPublisher, cfg.withDefaults⟩

def truncate (s : Bytes) (n : Nat) : Bytes := if s.length ≤ n then s else toValidUTF8 (s.take n)

def headerOf (headers : List (String × String)) (key : String) : String :=
  (headers.lookup key).getD ""

def Relay.message (r : Relay) (x : Pending) : Kafka.Message where
  topic := r.cfg.topic
  key := utf8 x.aggregateID
  value := x.payload
  partition := 0
  offset := 0
  headers := [⟨"event_id", utf8 x.eventID⟩, ⟨"event_type", utf8 x.eventType.text⟩,
      ⟨"content_type", utf8 "application/json"⟩] ++
    (["traceparent", "tracestate"].filter fun k => headerOf x.headers k ≠ "").map fun k =>
      ⟨k, utf8 (headerOf x.headers k)⟩
  timestamp := 0
  attempt := 0

abbrev Pass := Prog Req Rep

abbrev ask (r : Req) : Pass (Rep r) := Prog.request r

def Relay.publish (r : Relay) (x : Pending) : Pass (Option Err) :=
  ask (.send x.id (r.message x))

/-- What the publish loop has so far: the acknowledged rows, how many rows the batch took,
and the error it stopped at. -/
structure Progress where
  done : List Nat
  taken : Nat
  pubErr : Option Err

def Relay.publishBatch (r : Relay) : List Pending → Progress → Pass Progress
  | [], acc => pure acc
  | x :: batch, acc => do
    if ← ask .ctxErr then
      pure acc
    else
      match ← r.publish x with
      | none => r.publishBatch batch ⟨acc.done ++ [x.id], acc.taken + 1, acc.pubErr⟩
      | some err =>
        if err.rejected then
          match ← ask (.recordRejection x.id (truncate err.text 1000)
              r.cfg.rejectBackoff.toNat) with
          | .error uerr =>
            pure ⟨acc.done, acc.taken + 1, some (.wrap "outbox: record rejection: " uerr)⟩
          | .ok _ => r.publishBatch batch ⟨acc.done, acc.taken + 1, acc.pubErr⟩
        else
          let pubErr := Err.wrap ("outbox: publish " ++ x.eventType.text ++ " " ++ x.aggregateID ++
            " (event " ++ x.eventID ++ "): ") err
          match ← ask (.recordFailure x.id (truncate err.text 1000)) with
          | none => pure ⟨acc.done, acc.taken, some pubErr⟩
          | some uerr => pure ⟨acc.done, acc.taken,
              Err.join [pubErr, .wrap "outbox: record failure: " uerr]⟩

/-- `sent`, `taken` and the error. -/
abbrev Outcome := Nat × Nat × Option Err

def Progress.finish (acc : Progress) : Pass Outcome := do
  let deleted ← if acc.done = [] then pure none else ask (.deletePublished acc.done)
  match deleted with
  | some err =>
    pure (0, 0, Err.join (acc.pubErr.toList ++ [.wrap "outbox: delete published: " err]))
  | none =>
    match ← ask .commit with
    | some err => pure (0, 0, Err.join (acc.pubErr.toList ++ [.wrap "outbox: commit: " err]))
    | none => pure (acc.done.length, acc.taken, acc.pubErr)

def Relay.inTx (r : Relay) : Pass Outcome := do
  match ← ask .tryLock with
  | .error err => pure (0, 0, some (.wrap "outbox: relay lock: " err))
  | .ok false => pure (0, 0, none)
  | .ok true =>
    match ← ask (.selectBatch r.cfg.batchSize.toNat r.cfg.maxAttempts.toNat) with
    | .failed err => pure (0, 0, some (.wrap "outbox: select batch: " err))
    | .unreadable err => pure (0, 0, some (.wrap "outbox: read batch: " err))
    | .rows batch =>
      if batch = [] then pure (0, 0, none) else do
        let acc ← r.publishBatch batch ⟨[], 0, none⟩
        acc.finish

def Relay.relayOnce (r : Relay) : Pass Outcome :=
  if r.hasPublisher then do
    match ← ask .beginTx with
    | some err => pure (0, 0, some (.wrap "outbox: begin: " err))
    | none =>
      let out ← r.inTx
      let _ ← ask .rollback
      pure out
  else pure (0, 0, none)

/-- A pass is a call of `relayOnce` on a relay of any configuration. -/
def passes (orderly : Bool) :
    Machine Nat Req Rep State Choice Env (Bool × Config) Outcome where
  serve := serve orderly
  env := env orderly
  accept p _ s := if (s.db.session p).isNone then some s else none
  code _ call := (newRelay call.1 call.2).relayOnce

end GolangBasics.Tasks.Outbox
