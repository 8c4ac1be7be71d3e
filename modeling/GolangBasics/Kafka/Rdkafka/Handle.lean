import GolangBasics.Conc.Threads

/-! The consumer of `libs/kafka-rdkafka` as the owner of its client: who calls into the client,
and when `Close` destroys it. One goroutine runs the loop and calls `Poll`, `Commit` and
`Close`; any goroutine calls `Ping`. A section under `mu` is one step, and so are entering and
leaving the client. -/
namespace GolangBasics.Kafka.Rdkafka.Handle
open Conc

/-- What is started with `go`: a commit whose caller may give up, and the wait for `calls`. -/
inductive Goroutine where
  | commit
  | waiter
  deriving DecidableEq

/-- The fields of `consumer` that calls and `Close` use. `ending` and `destroyed` say how far
the client's own close is, `waited` is what the select of `waitTimeout` got first: the end of
the calls or its timer. `looping` says that the loop's goroutine has started. -/
structure Shared where
  failed : Bool
  closing : Bool
  closed : Bool
  calls : Nat
  waited : Option Bool
  ending : Bool
  destroyed : Bool
  looping : Bool
  starting : List Goroutine

def newConsumer : Shared where
  failed := false
  closing := false
  closed := false
  calls := 0
  waited := none
  ending := false
  destroyed := false
  looping := false
  starting := []

def Shared.add (m : Shared) : Shared := { m with calls := m.calls + 1 }

def Shared.done (m : Shared) : Shared := { m with calls := m.calls - 1 }

/-- Where `Commit` and the rebalance callback are called from. -/
inductive Site where
  | loop | poll | close
  deriving DecidableEq

/-- Where a thread is. The comments name the step it takes next. -/
inductive Pc where
  /-- `Ping`: load `failed`. -/
  | ping
  /-- `Ping`: the section that counts the call. -/
  | pingCheck
  /-- `Ping`: enter the client, unless the context is over. -/
  | pingCall
  /-- `Ping`: leave the client. -/
  | pingInside
  /-- `Ping`: `calls.Done`. -/
  | pingDone
  /-- The loop's goroutine starts. -/
  | loop
  /-- The loop: call `Poll`, `Commit` or `Close`, or end. -/
  | idle
  /-- `Poll`: read `closing`. -/
  | pollCheck
  /-- `Poll`: enter the client's `Poll`, or return. -/
  | polling
  /-- `Poll`: inside the client's `Poll`, which may run the rebalance callback. -/
  | inPoll
  /-- The callback: inside `AssignmentLost`. -/
  | lost (w : Site)
  /-- The callback: commit what was processed, or return. -/
  | revoked (w : Site)
  /-- `Commit`: the section that counts the call. -/
  | commitCheck (w : Site)
  /-- `Commit` during `Close`: enter the client. -/
  | commitSync (w : Site)
  /-- `Commit` during `Close`: leave the client. -/
  | commitSyncInside (w : Site)
  /-- `Commit` during `Close`: `calls.Done`. -/
  | commitSyncDone (w : Site)
  /-- `Commit`: start the goroutine. -/
  | commitSpawn (w : Site)
  /-- `Commit`: wait for the goroutine or the end of the context. -/
  | commitWait (w : Site)
  /-- A goroutine that has not run yet. -/
  | goroutine
  /-- The goroutine of `Commit`: enter the client. -/
  | commitGo
  /-- The goroutine of `Commit`: leave the client. -/
  | commitGoInside
  /-- The goroutine of `Commit`: `calls.Done`. -/
  | commitGoDone
  /-- `waitTimeout`: `calls.Wait`. -/
  | waiter
  /-- `Close`: read and set `closing`. -/
  | closeCheck
  /-- `Close`: `waitTimeout` starts its goroutine. -/
  | closeSpawn
  /-- `Close`: the select of `waitTimeout`. -/
  | closeWait
  /-- `Close`: give up on the client. -/
  | closeGiveUp
  /-- `Close`: the client's `Close` begins. -/
  | closeBegin
  /-- `Close`: inside the client's `Close`, which may run the rebalance callback. -/
  | inClose
  /-- `Close`: mark the client gone. -/
  | closeMark
  /-- `Close`: wait for the log pump and close the dead-letter producer. -/
  | closeRest
  /-- The call or goroutine is over. -/
  | returned
  deriving DecidableEq

def Site.back : Site → Pc
  | .loop => .idle
  | .poll => .inPoll
  | .close => .inClose

def Goroutine.pc : Goroutine → Pc
  | .commit => .commitGo
  | .waiter => .waiter

/-- `go` is the step there is; the other choices are the loop's, the client's or a context's. -/
inductive Choice where
  | go
  | poll
  | commit
  | close
  /-- A call returns early, or the loop ends. -/
  | skip
  /-- The client reports a fatal error. -/
  | fatal
  /-- The client revokes partitions. -/
  | revoke
  /-- Which of the started goroutines runs. -/
  | pick (n : Nat)

def step (_ : Nat) : Pc → Choice → Shared → Option (Pc × Shared)
  | .ping, .go, m => some (if m.failed then .returned else .pingCheck, m)
  | .pingCheck, .go, m =>
    if m.closing ∨ m.closed then some (.returned, m) else some (.pingCall, m.add)
  | .pingCall, .go, m => some (.pingInside, m)
  | .pingCall, .skip, m => some (.pingDone, m)
  | .pingInside, .go, m => some (.pingDone, m)
  | .pingDone, .go, m => some (.returned, m.done)
  | .loop, .go, m => if m.looping then none else some (.idle, { m with looping := true })
  | .idle, .poll, m => some (.pollCheck, m)
  | .idle, .commit, m => some (.commitCheck .loop, m)
  | .idle, .close, m => some (.closeCheck, m)
  | .idle, .skip, m => some (.returned, m)
  | .pollCheck, .go, m => some (if m.closing then .idle else .polling, m)
  | .polling, .go, m => some (.inPoll, m)
  | .polling, .skip, m => some (.idle, m)
  | .inPoll, .go, m => some (.polling, m)
  | .inPoll, .fatal, m => some (.idle, { m with failed := true })
  | .inPoll, .revoke, m => some (.lost .poll, m)
  | .lost w, .go, m => some (.revoked w, m)
  | .lost w, .skip, m => some (w.back, m)
  | .revoked w, .commit, m => some (.commitCheck w, m)
  | .revoked w, .skip, m => some (w.back, m)
  | .commitCheck w, .go, m =>
    if m.closed then some (w.back, m)
    else some (if m.closing then .commitSync w else .commitSpawn w, m.add)
  | .commitSync w, .go, m => some (.commitSyncInside w, m)
  | .commitSyncInside w, .go, m => some (.commitSyncDone w, m)
  | .commitSyncDone w, .go, m => some (w.back, m.done)
  | .commitSpawn w, .go, m => some (.commitWait w, { m with starting := m.starting ++ [.commit] })
  | .commitWait w, .go, m => some (w.back, m)
  | .goroutine, .pick n, m =>
    m.starting[n]?.map fun g => (g.pc, { m with starting := m.starting.eraseIdx n })
  | .commitGo, .go, m => some (.commitGoInside, m)
  | .commitGoInside, .go, m => some (.commitGoDone, m)
  | .commitGoDone, .go, m => some (.returned, m.done)
  | .waiter, .go, m =>
    if m.calls = 0 then some (.returned, { m with waited := some (m.waited.getD true) }) else none
  | .closeCheck, .go, m =>
    if m.closing then some (.idle, m) else some (.closeSpawn, { m with closing := true })
  | .closeSpawn, .go, m => some (.closeWait, { m with starting := m.starting ++ [.waiter] })
  | .closeWait, .go, m => m.waited.map fun b => (if b then .closeBegin else .closeGiveUp, m)
  | .closeGiveUp, .go, m => some (.idle, { m with closed := true })
  | .closeBegin, .go, m => some (.inClose, { m with ending := true })
  | .inClose, .revoke, m => some (.lost .close, m)
  | .inClose, .go, m => some (.closeMark, { m with destroyed := true })
  | .closeMark, .go, m => some (.closeRest, { m with closed := true })
  | .closeRest, .go, m => some (.idle, m)
  | _, _, _ => none

/-- `closeWait` has passed since the wait began. -/
inductive Env where
  | timer

def env : Env → Shared → Option Shared
  | .timer, m => if m.closing ∧ m.waited = none then some { m with waited := some false } else none

/-- Any number of calls of `Ping`, the loop, and the goroutines they start. -/
def consumer : Threads Shared Pc Choice Env where
  start l := l = .ping ∨ l = .loop ∨ l = .goroutine
  step := step
  env := env

end GolangBasics.Kafka.Rdkafka.Handle
