import GolangBasics.Kafka.Types

/-! The consumer of `libs/kafka-rdkafka`: the rebalance callback and `Poll`. The client
library is not part of the model. Its side of one call of `Poll` is the list of inner
`cl.Poll` calls, each with the callbacks it ran and the event it returned, and the list
ends where the context does. -/
namespace GolangBasics.Kafka.Rdkafka

structure ClientPartition where
  topic : Option String
  partition : Int
  offset : Int
  error : Option Err
  deriving DecidableEq

structure ClientMessage where
  topicPartition : ClientPartition
  key : Bytes
  value : Bytes
  headers : List Header
  timestamp : Int
  deriving DecidableEq

/-- What the client passes to the rebalance callback; `lost` is `cl.AssignmentLost()`. -/
inductive RebalanceEvent where
  | assigned (parts : List ClientPartition)
  | revoked (parts : List ClientPartition) (lost : Bool)
  | other
  deriving DecidableEq

/-- What `cl.Poll` returns when it does not return nil. -/
inductive ClientEvent where
  | message (m : ClientMessage)
  | stats (json : String)
  | error (e : Err) (fatal : Bool)
  | other
  deriving DecidableEq

/-- One call of `cl.Poll`: the callbacks it ran first, then its result. -/
structure InnerCall where
  callbacks : List RebalanceEvent
  event : Option ClientEvent
  deriving DecidableEq

/-- The fields of `consumer` that the callback and `Poll` touch. `rb` lists the calls
made to the `kafka.Rebalance` the consumer was built with. -/
structure Consumer where
  closing : Bool
  revoked : Option (List TopicPartition)
  failed : Option Err
  stats : List String
  rb : List Rebalance

def toPartitions (tps : List ClientPartition) : List TopicPartition :=
  tps.filterMap fun tp => tp.topic.map fun t => ⟨t, tp.partition⟩

def toMessage (e : ClientMessage) : Message where
  topic := e.topicPartition.topic.getD ""
  key := e.key
  value := e.value
  partition := e.topicPartition.partition
  offset := e.topicPartition.offset
  headers := e.headers
  timestamp := e.timestamp
  attempt := 0

def record (gone : List TopicPartition) (parts : List TopicPartition) : List TopicPartition :=
  parts.foldl (fun gone p => gone.insert p) gone

def rebalance (c : Consumer) : RebalanceEvent → Consumer
  | .assigned parts => { c with rb := c.rb ++ [.assigned (some (toPartitions parts))] }
  | .revoked parts lost =>
    let parts := toPartitions parts
    { c with
      rb := c.rb ++ [if lost then .lost (some parts) else .revoked (some parts)]
      revoked := c.revoked.map (record · parts) }
  | .other => c

structure Loop where
  c : Consumer
  out : List Message
  errs : List Err
  timeoutMs : Nat

/-- The end of the loop body: drop what was polled for revoked partitions. -/
def sweep (l : Loop) : Loop :=
  match l.c.revoked with
  | some (p :: gone) =>
    { l with
      out := l.out.filter fun m => m.tp ∉ p :: gone
      c := { l.c with revoked := some [] } }
  | _ => l

/-- A call of `Poll` that has returned: its two results, the consumer after it, and
the inner calls it did not make. -/
structure Polled where
  messages : List Message
  err : Option Err
  c : Consumer
  unread : List InnerCall

def Polled.fatal (r : Polled) : Bool := r.err.any (Err.is .clientFailed)

def Loop.done (l : Loop) (unread : List InnerCall) : Polled :=
  ⟨l.out, Err.join l.errs, l.c, unread⟩

def pollLoop (max : Int) (l : Loop) : List InnerCall → Polled
  | [] => l.done []
  | call :: calls =>
    if max ≤ l.out.length then l.done (call :: calls) else
    let l := { l with c := call.callbacks.foldl rebalance l.c }
    match call.event with
    | none => if l.out ≠ [] then l.done calls else pollLoop max l calls
    | some (.message m) =>
      match m.topicPartition.error with
      | some e => pollLoop max { l with errs := l.errs ++ [e] } calls
      | none => pollLoop max (sweep { l with out := l.out ++ [toMessage m], timeoutMs := 0 }) calls
    | some (.stats json) =>
      pollLoop max (sweep { l with c := { l.c with stats := l.c.stats ++ [json] } }) calls
    | some (.error e true) =>
      let err := .pair (.sentinel .clientFailed) ": " e
      ⟨[], some err, { l.c with failed := some err }, calls⟩
    | some (.error e false) => pollLoop max (sweep { l with errs := l.errs ++ [e] }) calls
    | some .other => pollLoop max (sweep l) calls

def poll (c : Consumer) (max : Int) (calls : List InnerCall) : Polled :=
  if c.closing then ⟨[], some (.sentinel .clientClosed), c, calls⟩ else
  let r := pollLoop max ⟨{ c with revoked := some [] }, [], [], 100⟩ calls
  { r with c := { r.c with revoked := none } }

end GolangBasics.Kafka.Rdkafka
