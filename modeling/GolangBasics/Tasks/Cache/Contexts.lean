import GolangBasics.Context
import GolangBasics.Tasks.Cache.Handlers

/-! The handlers under the contexts of their requests: when the client disconnects or the
deadline passes between a commit and its invalidation, the tombstone is not written. -/
namespace GolangBasics.Tasks.Cache
open Conc

/-- The shared state, and the context of each call; deadlines are times of the cache's clock. -/
structure Timed where
  base : State := {}
  contexts : Nat → Context := fun _ => .background

namespace Timed

def err (s : Timed) (p : Nat) : Option Err := (s.contexts p).err s.base.cached.clock

def lift (cfg : Config) (p : Nat) (r : Req) (x : Choice) (s : Timed) : Option (Rep r × Timed) :=
  (Cache.serve cfg p r x s.base).map fun y => (y.1, { s with base := y.2 })

/-- The cache is reachable: a command succeeds while its context is live and fails after that.
A method of the store may fail at any time and succeeds only under a live context. -/
def serve (cfg : Config) (p : Nat) (r : Req) (x : Choice) (s : Timed) : Option (Rep r × Timed) :=
  match r, s.err p, x with
  | .get, none, .ok => s.lift cfg p .get .ok
  | .get, some err, _ => s.lift cfg p .get (.fail err)
  | .setNX v, none, .ok => s.lift cfg p (.setNX v) .ok
  | .setNX v, some err, _ => s.lift cfg p (.setNX v) (.fail err)
  | .setTombstone ttl, none, .ok => s.lift cfg p (.setTombstone ttl) .ok
  | .setTombstone _, some err, _ => some (some err, s)
  | .source r, none, x => s.lift cfg p (.source r) x
  | .source r, some _, .fail err => s.lift cfg p (.source r) (.fail err)
  | .source r, some _, .late err => s.lift cfg p (.source r) (.late err)
  | .await, _, .ok => s.lift cfg p .await .ok
  | .await, some err, .fail _ => s.lift cfg p .await (.fail err)
  | .doChan replica, _, .ok => s.lift cfg p (.doChan replica) .ok
  | .finish replica res, _, .ok => s.lift cfg p (.finish replica res) .ok
  | _, _, _ => none

inductive Env where
  | disconnect (p : Nat)
  | tick (d : Nat)
  | cache (e : Cache.Env)

def env (cfg : Config) : Env → Timed → Option Timed
  | .disconnect p, s => some { s with
      contexts := Function.update s.contexts p ((s.contexts p).cancel s.base.cached.clock) }
  | .tick d, s => some { s with
      base := { s.base with cached := { s.base.cached with clock := s.base.cached.clock + d } } }
  | .cache e, s => (Cache.env cfg e s.base).map fun base => { s with base := base }

/-- A call starts, with or without a deadline. -/
def accept (p : Nat) (call : Call × Option Nat) (s : Timed) : Option Timed :=
  (Cache.accept p call.1 s.base).map fun base =>
    ⟨base, Function.update s.contexts p ⟨call.2, false⟩⟩

end Timed

def timedCalls (cfg : Config) :
    Machine Nat Req Rep Timed Choice Timed.Env (Call × Option Nat) Result where
  serve := Timed.serve cfg
  env := Timed.env cfg
  accept := Timed.accept
  code _ call := call.1.run cfg

def Call.changes : Call → Bool
  | update .. | delete _ => true
  | _ => false

variable {cfg : Config}

def ending (cfg : Config) (res : Result) : Cmd Result :=
  .ask (.setTombstone cfg.tombstoneTTL) fun _ => .ret res

theorem invalidate_bind (cfg : Config) (res : Result) :
    (invalidate cfg >>= fun _ => pure res) = ending cfg res := by
  have hpos : ¬ cfg.tombstoneTTL ≤ 0 := Nat.not_le.mpr cfg.positive
  unfold invalidate Valkey.tombstone Valkey.setTombstone ending
  rw [if_neg hpos]
  simp only [Prog.request_bind, Prog.ask_bind]
  congr 1
  funext rep
  cases rep <;> rfl

/-- What is left of a handler that changes a task: the method of the store and what follows,
the invalidation, or nothing. -/
def Stage (cfg : Config) (prog : Cmd Result) : Prop :=
  (∃ r k, prog = .ask (.source r) k ∧
    ∀ rep, (∃ res, k rep = .ret res ∧ res.err ≠ none) ∨ ∃ res, k rep = ending cfg res) ∨
  (∃ res, prog = ending cfg res) ∨ ∃ res, prog = .ret res

theorem stage_run {call : Call} (h : call.changes) : Stage cfg (call.run cfg) := by
  cases call with
  | update patch expect =>
    refine .inl ⟨_, _, rfl, fun rep => ?_⟩
    cases rep with
    | error err => exact .inl ⟨_, rfl, by simp⟩
    | ok t => exact .inr ⟨_, invalidate_bind cfg _⟩
  | delete expect =>
    refine .inl ⟨_, _, rfl, fun rep => ?_⟩
    cases rep with
    | some err => exact .inl ⟨_, rfl, by simp⟩
    | none => exact .inr ⟨_, invalidate_bind cfg _⟩
  | _ => cases h

theorem Stage.leads {prog prog' : Cmd Result} (h : Stage cfg prog) (hl : prog.Leads prog') :
    Stage cfg prog' := by
  induction hl with
  | refl => exact h
  | reply _ x ih =>
    obtain ⟨r, k, heq, hk⟩ | ⟨res, heq⟩ | ⟨res, heq⟩ := ih
    · cases heq
      obtain ⟨res, hres, -⟩ | ⟨res, hres⟩ := hk x
      · exact .inr (.inr ⟨res, hres⟩)
      · exact .inr (.inl ⟨res, hres⟩)
    · cases heq
      exact .inr (.inr ⟨res, rfl⟩)
    · cases heq

def Timed.Invalidated (s : Timed) : Prop := ∃ expires, s.base.cached.slot = .tombstone expires

/-- The tombstone is written under a live context, and not at all otherwise. -/
theorem invalidated_serve {s s' : Timed} {p ttl : Nat} {x : Choice} {rep : Rep (.setTombstone ttl)}
    (h : Timed.serve cfg p (.setTombstone ttl) x s = some (rep, s')) :
    s'.Invalidated ↔ s.err p = none ∨ s.Invalidated := by
  cases herr : s.err p with
  | some err =>
    simp only [Timed.serve, herr] at h
    obtain ⟨-, rfl⟩ := Prod.mk.inj (Option.some.inj h)
    simp
  | none =>
    cases x <;> simp only [Timed.serve, herr, reduceCtorEq] at h
    obtain ⟨y, hy, heq⟩ := Option.map_eq_some_iff.mp h
    obtain rfl := Option.some.inj hy
    obtain ⟨-, rfl⟩ := Prod.mk.inj heq
    exact iff_of_true ⟨_, rfl⟩ (.inl rfl)

variable {c c' : Conc.Config Nat Req Rep Timed (Call × Option Nat) Result} {p : Nat} {x : Choice}
  {call : Call × Option Nat} {res : Result}

/-- When a handler whose change has been committed returns, the key is a tombstone exactly if
the context of its request was still live or the key was a tombstone already. -/
theorem invalidated_iff (hc : (timedCalls cfg).Reachable {} c)
    (hnext : (timedCalls cfg).next c (.step p x) = some c') (hcall : call.1.changes)
    (hp : c'.proc p = some (call, .ret res)) (hres : res.err = none) :
    c'.shared.Invalidated ↔ c.shared.err p = none ∨ c.shared.Invalidated := by
  obtain ⟨r, k, rep, hproc, hserve, hret⟩ := Machine.next_returns hnext hp
  obtain ⟨r', k', heq, hk⟩ | ⟨res', heq⟩ | ⟨res', heq⟩ :=
    (stage_run hcall).leads (hc.leads hproc)
  · cases heq
    obtain ⟨res', hres', herr⟩ | ⟨res', hres'⟩ := hk rep
    · obtain rfl : res' = res := Prog.ret.inj (hres'.symm.trans hret)
      exact absurd hres herr
    · cases hres'.symm.trans hret
  · cases heq
    exact invalidated_serve hserve
  · cases heq

/-- A task is created and cached, a client changes its title, and `gone` happens between the
commit and the invalidation. -/
def renamed (gone : List Timed.Env) : List (Event Nat Choice Timed.Env (Call × Option Nat)) :=
  [.start 0 (.create "old", none), .step 0 .ok, .step 0 .ok,
    .start 1 (.update ⟨some "new", none⟩ none, some 15000), .step 1 .ok] ++ gone.map .env

theorem invalidated_iff_renamed :
    ∃ c c', (timedCalls ⟨"t1", 5, by decide⟩).run ⟨{}, fun _ => none⟩ (renamed []) = some c ∧
      (timedCalls ⟨"t1", 5, by decide⟩).next c (.step 1 .ok) = some c' ∧
      c'.shared.Invalidated := by
  obtain ⟨c, c', hrun, hnext, herr, hproc⟩ :
      ∃ c c', (timedCalls ⟨"t1", 5, by decide⟩).run ⟨{}, fun _ => none⟩ (renamed []) = some c ∧
        (timedCalls ⟨"t1", 5, by decide⟩).next c (.step 1 .ok) = some c' ∧
        c.shared.err 1 = none ∧ c'.proc 1 = some ((.update ⟨some "new", none⟩ none, some 15000),
          .ret { task := ⟨"t1", "new", false, 2, 0⟩ }) := ⟨_, _, rfl, rfl, rfl, rfl⟩
  refine ⟨c, c', hrun, hnext, ?_⟩
  exact (invalidated_iff (Machine.Reachable.init.run hrun) hnext rfl hproc rfl).mpr (.inl herr)

/-- The client disconnects after the commit: its change is reported as done, and the entry
with the old title stays. -/
theorem disconnect_keeps_old_entry :
    ∃ c, (timedCalls ⟨"t1", 5, by decide⟩).run ⟨{}, fun _ => none⟩
        (renamed [.disconnect 1] ++ [.step 1 .ok]) = some c ∧
      c.proc 1 = some ((.update ⟨some "new", none⟩ none, some 15000),
        .ret { task := ⟨"t1", "new", false, 2, 0⟩ }) ∧
      c.shared.base.life = .live ⟨"t1", "new", false, 2, 0⟩ ∧
      c.shared.base.cached.slot = .value ⟨"t1", "old", false, 1, 0⟩ := by
  exact ⟨_, rfl, rfl, rfl, rfl⟩

end GolangBasics.Tasks.Cache
