import GolangBasics.Conc.Sync
import GolangBasics.Conc.Threads

/-! The producer of `libs/kafka-rdkafka`: calls into the client under the read lock, the
replacement of a client that failed fatally, and `Close`. Taking and leaving the lock, entering
and leaving a client, creating and closing one, and the events of a pump are steps of their
own. -/
namespace GolangBasics.Kafka.Rdkafka.Producer
open Conc

/-- `ckafka.Producer`, as far as its end goes: how many calls of its `Close` have begun and
how many are over. -/
@[ext]
structure Client where
  begun : Nat
  ended : Nat
  deriving DecidableEq

inductive Goroutine where
  | pumpLogs (cl : Nat)
  | pumpEvents (cl : Nat)
  | replace (failed : Nat)
  deriving DecidableEq

/-- The fields of `producer` that change. `clients` lists every client ever created and a
pointer to a client is its place there. `starting` are the goroutines that have been started
and have not run yet. -/
structure Shared where
  mu : RWMutex
  cl : Nat
  closed : Bool
  wg : Nat
  clients : List Client
  starting : List Goroutine

def Shared.newClient (m : Shared) : Shared :=
  { m with
    clients := m.clients ++ [⟨0, 0⟩]
    wg := m.wg + 2
    starting := m.starting ++ [.pumpLogs m.clients.length, .pumpEvents m.clients.length] }

def newProducer : Shared :=
  Shared.newClient { mu := .unlocked, cl := 0, closed := false, wg := 0, clients := [],
                     starting := [] }

def Shared.begin (m : Shared) (cl : Nat) : Shared :=
  { m with clients := m.clients.modify cl fun c => { c with begun := c.begun + 1 } }

def Shared.finish (m : Shared) (cl : Nat) : Shared :=
  { m with clients := m.clients.modify cl fun c => { c with ended := c.ended + 1 } }

def Shared.done (m : Shared) : Shared := { m with wg := m.wg - 1 }

inductive Call where
  | send | ping
  deriving DecidableEq

/-- Where a thread is. The comments name the step it takes next. -/
inductive Pc where
  /-- `produce` or `Ping`: `mu.RLock`. -/
  | rLock (k : Call)
  /-- Read `closed` and `cl`, and enter the client. -/
  | check (k : Call)
  /-- Leave the client. -/
  | inside (k : Call) (cl : Nat)
  /-- `mu.RUnlock`; `full` when the client's queue had no room. -/
  | rUnlock (full : Bool)
  /-- `Send`: wait for room, or for the end of the context. -/
  | waitRoom
  /-- A goroutine that has not run yet. -/
  | goroutine
  /-- `pumpLogs`: the next log line. -/
  | pumpLogs (cl : Nat)
  /-- `pumpEvents`: the next event. -/
  | pumpEvents (cl : Nat)
  /-- `startReplace`: `mu.Lock`. -/
  | startLock (failed : Nat)
  /-- `startReplace`: read `closed`, and start the replacement. -/
  | startCheck (failed : Nat)
  /-- `startReplace`: `mu.Unlock`, back to the pump. -/
  | startUnlock (failed : Nat)
  /-- `replace`: `mu.Lock`. -/
  | replaceLock (failed : Nat)
  /-- `replace`: read `closed` and `cl`. -/
  | replaceCheck (failed : Nat)
  /-- `replace`: `newClient`. -/
  | replaceCreate (failed : Nat)
  /-- `replace`: `p.cl = cl`. -/
  | replaceSwap (failed cl : Nat)
  /-- `replace`: `mu.Unlock`; `swapped` when the new client is in place. -/
  | replaceUnlock (failed : Nat) (swapped : Bool)
  /-- `replace`: `failed.Close` begins. -/
  | replaceClose (failed : Nat)
  /-- `replace`: `failed.Close` ends. -/
  | replaceClosing (failed : Nat)
  /-- `replace`: `wg.Done`. -/
  | replaceDone
  /-- `Close`: `mu.Lock`. -/
  | closeLock
  /-- `Close`: read and set `closed`. -/
  | closeCheck
  /-- `Close`: `mu.Unlock`; `cl` is the client to close, none when another call closes it. -/
  | closeUnlock (cl : Option Nat)
  /-- `Close`: enter the client with `Flush`. -/
  | flush (cl : Nat)
  /-- `Close`: leave `Flush`. -/
  | flushing (cl : Nat)
  /-- `Close`: `cl.Close` begins. -/
  | closeClient (cl : Nat)
  /-- `Close`: `cl.Close` ends. -/
  | closingClient (cl : Nat)
  /-- `Close`: `wg.Wait`. -/
  | wait
  /-- The `Close` that closed the producer has returned. -/
  | closed
  /-- Any other call or goroutine is over. -/
  | returned
  deriving DecidableEq

def Goroutine.pc : Goroutine → Pc
  | .pumpLogs cl => .pumpLogs cl
  | .pumpEvents cl => .pumpEvents cl
  | .replace failed => .replaceLock failed

inductive Choice where
  | go
  /-- Which of the started goroutines runs. -/
  | pick (n : Nat)
  /-- `Produce` finds its queue full. -/
  | full
  /-- The context is over. -/
  | over
  /-- The pump receives a fatal error. -/
  | fatal
  /-- The channel of the pump is closed. -/
  | drained
  /-- `NewProducer` fails. -/
  | fail

/-- The channels of a client are closed by its `Close`. -/
def Shared.closing (m : Shared) (cl : Nat) : Bool := m.clients[cl]?.any fun c => 0 < c.begun

/-- The next step of a thread. Other log lines and events of a pump change nothing. -/
def step (_ : Nat) : Pc → Choice → Shared → Option (Pc × Shared)
  | .rLock k, .go, m => m.mu.rLock.map fun mu => (.check k, { m with mu })
  | .check k, .go, m => some (if m.closed then .rUnlock false else .inside k m.cl, m)
  | .check .ping, .over, m => some (.rUnlock false, m)
  | .inside _ _, .go, m => some (.rUnlock false, m)
  | .inside .send _, .full, m => some (.rUnlock true, m)
  | .rUnlock full, .go, m =>
    some (if full then .waitRoom else .returned, { m with mu := m.mu.rUnlock })
  | .waitRoom, .go, m => some (.rLock .send, m)
  | .waitRoom, .over, m => some (.returned, m)
  | .goroutine, .pick n, m =>
    m.starting[n]?.map fun g => (g.pc, { m with starting := m.starting.eraseIdx n })
  | .pumpLogs cl, .drained, m => if m.closing cl then some (.returned, m.done) else none
  | .pumpEvents cl, .drained, m => if m.closing cl then some (.returned, m.done) else none
  | .pumpEvents cl, .fatal, m => some (.startLock cl, m)
  | .startLock failed, .go, m => m.mu.lock.map fun mu => (.startCheck failed, { m with mu })
  | .startCheck failed, .go, m =>
    some (.startUnlock failed, if m.closed then m
      else { m with wg := m.wg + 1, starting := m.starting ++ [.replace failed] })
  | .startUnlock failed, .go, m => some (.pumpEvents failed, { m with mu := m.mu.unlock })
  | .replaceLock failed, .go, m => m.mu.lock.map fun mu => (.replaceCheck failed, { m with mu })
  | .replaceCheck failed, .go, m =>
    some (if m.closed ∨ m.cl ≠ failed then .replaceUnlock failed false
      else .replaceCreate failed, m)
  | .replaceCreate failed, .go, m => some (.replaceSwap failed m.clients.length, m.newClient)
  | .replaceCreate failed, .fail, m => some (.replaceUnlock failed false, m)
  | .replaceSwap failed cl, .go, m => some (.replaceUnlock failed true, { m with cl })
  | .replaceUnlock failed swapped, .go, m =>
    some (if swapped then .replaceClose failed else .replaceDone, { m with mu := m.mu.unlock })
  | .replaceClose failed, .go, m => some (.replaceClosing failed, m.begin failed)
  | .replaceClosing failed, .go, m => some (.replaceDone, m.finish failed)
  | .replaceDone, .go, m => some (.returned, m.done)
  | .closeLock, .go, m => m.mu.lock.map fun mu => (.closeCheck, { m with mu })
  | .closeCheck, .go, m =>
    if m.closed then some (.closeUnlock none, m)
    else some (.closeUnlock (some m.cl), { m with closed := true })
  | .closeUnlock cl, .go, m => some (cl.elim .returned .flush, { m with mu := m.mu.unlock })
  | .flush cl, .go, m => some (.flushing cl, m)
  | .flushing cl, .go, m => some (.closeClient cl, m)
  | .closeClient cl, .go, m => some (.closingClient cl, m.begin cl)
  | .closingClient cl, .go, m => some (.wait, m.finish cl)
  | .wait, .go, m => if m.wg = 0 then some (.closed, m) else none
  | _, _, _ => none

/-- Any number of calls of `Send`, `Ping` and `Close`, and the goroutines they start. -/
def producer : Threads Shared Pc Choice Empty where
  start l := l = .rLock .send ∨ l = .rLock .ping ∨ l = .closeLock ∨ l = .goroutine
  step := step
  env := nofun

end GolangBasics.Kafka.Rdkafka.Producer
