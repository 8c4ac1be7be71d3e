import Mathlib.Logic.Function.Basic
import GolangBasics.Conc.Threads

/-! The readiness checks of `libs/httpx`: `Register`, `refresh` and the readiness handler, run
by any number of goroutines. What happens under `h.mu` is one step, and so are the
compare-and-swap of a check's `running` flag, the two steps of `refreshMu` and each step of an
evaluation. -/
namespace GolangBasics.Httpx
open Conc

/-- `check`: whether it is optional, and whether an evaluation has not returned yet. -/
structure Check where
  optional : Bool
  running : Bool
  deriving DecidableEq

/-- `result`. The last two fields only record where it comes from: the check it is of, and how
many evaluations of any check had finished before. -/
structure Result where
  err : Option String
  checkedAt : Nat
  check : Nat
  seq : Nat
  deriving DecidableEq

/-- A run of `runCheck`: the check, what its function has sent on `done`, whether the flag is
cleared, and the result. -/
structure Evaluation where
  check : Nat
  done : Option (Option String)
  cleared : Bool
  result : Option Result
  deriving DecidableEq

/-- The fields of `Health` that do not change, in nanoseconds, and the text of the error of
an evaluation that timed out. -/
structure Health where
  interval : Nat
  timeout : Nat
  timedOut : String

/-- `checks` and `results` are the maps of those names; a check is its place among all that
were ever registered. `up` is the gauge `health_check_up` by check and criticality. -/
structure State where
  ready : Bool := false
  objects : List Check := []
  checks : List (String × Nat) := []
  results : String → Option Result := fun _ => none
  up : String → Bool → Option Bool := fun _ _ => none
  evaluations : List Evaluation := []
  refreshMu : Bool := false
  clock : Nat := 0
  finished : Nat := 0

def State.optional (m : State) (check : Nat) : Bool :=
  match m.objects[check]? with
  | some c => c.optional
  | none => false

def State.running (m : State) (check : Nat) : Bool :=
  match m.objects[check]? with
  | some c => c.running
  | none => false

def State.setRunning (m : State) (check : Nat) (running : Bool) : State :=
  match m.objects[check]? with
  | some c => { m with objects := m.objects.set check { c with running := running } }
  | none => m

def State.register (m : State) (name : String) (optional : Bool) : State :=
  { m with
    objects := m.objects ++ [⟨optional, false⟩]
    checks := (name, m.objects.length) :: m.checks.filter (·.1 ≠ name)
    results := Function.update m.results name none
    up := Function.update m.up name fun _ => none }

def Health.stale (h : Health) (m : State) : Bool :=
  m.checks.any fun x =>
    match m.results x.1 with
    | none => true
    | some r => r.checkedAt + (2 * h.interval + h.timeout) < m.clock

/-- What `refresh` has of a check: its name, and the evaluation if it was not skipped. -/
structure Item where
  name : String
  check : Nat
  evaluation : Option Nat

def State.out (m : State) (item : Item) : Option Result :=
  (item.evaluation.bind (m.evaluations[·]?)).bind Evaluation.result

def State.store (m : State) (item : Item) : State :=
  match m.out item with
  | none => m
  | some r =>
    if m.checks.any (·.1 = item.name) then
      { m with
        results := Function.update m.results item.name (some r)
        up := Function.update m.up item.name
          (Function.update (m.up item.name) (!m.optional item.check) (some r.err.isNone)) }
    else m

structure Answer where
  status : Nat
  body : String
  checks : List (String × String)
  deriving DecidableEq

def notReady : Answer := ⟨503, "not_ready", []⟩

def State.err (m : State) (name : String) : Option String := (m.results name).bind Result.err

def State.answer (m : State) : Answer :=
  let failing := m.checks.filter fun x => (m.err x.1).isSome
  let checks := m.checks.map fun x => (x.1, (m.err x.1).getD "ok")
  if failing.any fun x => !m.optional x.2 then ⟨503, "not_ready", checks⟩
  else if failing.any fun x => m.optional x.2 then ⟨200, "degraded", checks⟩
  else ⟨200, "ready", checks⟩

inductive Local where
  /-- `refresh`: copy the checks. In the probe it holds `refreshMu`. -/
  | copy (inline : Bool)
  /-- `refresh`: try to start the evaluations. -/
  | start (inline : Bool) (todo : List (String × Nat)) (out : List Item)
  /-- `refresh`: wait for the evaluations it has started. -/
  | wait (inline : Bool) (out : List Item)
  /-- `refresh`: store the results. -/
  | store (inline : Bool) (out : List Item)
  | refreshed
  /-- The readiness handler: load the gate. -/
  | probe
  /-- `snapshot`: is a result stale? -/
  | stale
  | lock
  | staleAgain
  | unlock
  /-- `snapshot`: read the maps. -/
  | read
  | answered (a : Answer)

/-- A step is taken, or the checks are copied in some order. -/
inductive Choice where
  | go
  | order (checks : List (String × Nat))

def Local.afterRefresh (inline : Bool) : Local := if inline then .unlock else .refreshed

def Health.step (h : Health) : Local → Choice → State → Option (Local × State)
  | .copy inline, .order checks, m =>
    if checks.Perm m.checks then some (.start inline checks [], m) else none
  | .start inline [] out, .go, m => some (.wait inline out, m)
  | .start inline ((name, check) :: todo) out, .go, m =>
    if m.running check then some (.start inline todo (out ++ [⟨name, check, none⟩]), m)
    else
      let m' := m.setRunning check true
      some (.start inline todo (out ++ [⟨name, check, some m.evaluations.length⟩]),
        { m' with evaluations := m.evaluations ++ [⟨check, none, false, none⟩] })
  | .wait inline out, .go, m =>
    if out.all fun item => item.evaluation.isNone || (m.out item).isSome then
      some (.store inline out, m)
    else none
  | .store inline out, .go, m => some (.afterRefresh inline, out.foldl State.store m)
  | .probe, .go, m => some (if m.ready then .stale else .answered notReady, m)
  | .stale, .go, m => some (if h.stale m then .lock else .read, m)
  | .lock, .go, m => if m.refreshMu then none else some (.staleAgain, { m with refreshMu := true })
  | .staleAgain, .go, m => some (if h.stale m then .copy true else .unlock, m)
  | .unlock, .go, m => some (.read, { m with refreshMu := false })
  | .read, .go, m => some (.answered m.answer, m)
  | _, _, _ => none

/-- What the rest of the process does: `Register`, `SetReady`, the clock, and the steps of an
evaluation. -/
inductive Env where
  | register (name : String) (optional : Bool)
  | setReady (ready : Bool)
  | tick (d : Nat)
  /-- The function of the check returns. -/
  | returns (evaluation : Nat) (err : Option String)
  /-- The deferred `running.Store(false)`. -/
  | clears (evaluation : Nat)
  /-- `runCheck` takes what its select finds: what `done` has, or that the context ended. -/
  | selects (evaluation : Nat) (ended : Bool)

def State.setEvaluation (m : State) (k : Nat) (e : Evaluation) : State :=
  { m with evaluations := m.evaluations.set k e }

def State.finish (m : State) (k : Nat) (e : Evaluation) (err : Option String) : State :=
  { m.setEvaluation k { e with result := some ⟨err, m.clock, e.check, m.finished⟩ } with
    finished := m.finished + 1 }

def Health.env (h : Health) : Env → State → Option State
  | .register name optional, m => some (m.register name optional)
  | .setReady ready, m => some { m with ready := ready }
  | .tick d, m => some { m with clock := m.clock + d }
  | .returns k err, m =>
    match m.evaluations[k]? with
    | some ⟨check, none, cleared, result⟩ =>
      some (m.setEvaluation k ⟨check, some err, cleared, result⟩)
    | _ => none
  | .clears k, m =>
    match m.evaluations[k]? with
    | some ⟨check, some err, false, result⟩ =>
      some ((m.setEvaluation k ⟨check, some err, true, result⟩).setRunning check false)
    | _ => none
  | .selects k ended, m =>
    match m.evaluations[k]?, ended with
    | some ⟨check, some err, cleared, none⟩, false =>
      some (m.finish k ⟨check, some err, cleared, none⟩ err)
    | some ⟨check, done, cleared, none⟩, true =>
      some (m.finish k ⟨check, done, cleared, none⟩ (some h.timedOut))
    | _, _ => none

def Local.starts : Local → Bool
  | .copy false | .probe => true
  | _ => false

def Health.handlers (h : Health) : Threads State Local Choice Env where
  start := Local.starts
  step _ := h.step
  env := h.env

end GolangBasics.Httpx
