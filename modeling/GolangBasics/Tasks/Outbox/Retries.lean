import GolangBasics.Conc.Solo
import GolangBasics.Tasks.Outbox.Backoff

/-! Runs in which a row is published again as early as it can be: one row, refused by the broker
in pass after pass. -/
namespace GolangBasics.Tasks.Outbox
open Conc List Option

def subject : Pending := ⟨1, "e1", "t1", .created, [], []⟩

def refusal : Err := newSendError .rejected 10 (.new [])

def State.begun (s : State) (p : Nat) : State := { s with db := (s.db.start p).acquire p [()] }

def State.later (s : State) (d : Nat) : State :=
  { s with db := { s.db with clock := s.db.clock + d } }

def State.refused (s : State) (p : Nat) : State :=
  { s with log := ⟨p, subject.id, some refusal⟩ :: s.log }

/-- The pass that began at `t` has recorded the refusal, with the given due time. -/
def State.settled (s : State) (p t next : Nat) : State :=
  let c := Change.rejection subject.id (truncate refusal.text 1000) next
  { s.refused p with db := (s.db.write p t [] [] c).commit Change.apply p [c] }

variable {p n k : Nat} {s : State} {cfg : Config} {next : Option Nat}
  {lastError : Option Bytes}

theorem select_subject {limit attempts now : Nat} (hdue : next.all (· ≤ now)) (hlimit : 0 < limit)
    (hk : k < attempts) :
    selectRows [⟨subject, k, next, lastError⟩] limit attempts now [] = [subject] := by
  obtain ⟨limit, rfl⟩ := Nat.exists_eq_add_of_lt hlimit
  simp [selectRows, Row.due, hdue, hk]

/-- A pass over the row comes to its publish and, once the broker has refused it, to its end. -/
theorem pass_alone (hsession : s.db.session p = none) (hlock : s.db.locks () = none)
    (htables : s.db.tables = [⟨subject, k, next, lastError⟩])
    (hdue : next.all (· ≤ s.db.clock)) (hk : (k : Int) < cfg.maxAttempts) :
    ∃ prog, sending prog = some subject.id ∧
      (passes false).alone p [.ok, .ok, .rows [], .cancelled false]
        (newRelay true cfg).relayOnce s = some (prog, s.begun p) ∧
      ∀ (s' : State) t d, s'.db.session p = some (.active t []) →
        s'.db.tables = [⟨subject, k, next, lastError⟩] → rejectDelay cfg.backoff k = some d →
        (passes false).alone p [.sent (some refusal), .ok, .ok, .ok] prog s' =
          some (.ret (0, 1, none), s'.settled p t (t + d)) := by
  have hlimit : 0 < cfg.withDefaults.batchSize.toNat := by
    simp only [Config.withDefaults]
    split_ifs <;> omega
  have hattempts : k < cfg.withDefaults.maxAttempts.toNat := by
    simp only [Config.withDefaults]
    split_ifs <;> omega
  have hbegin : serve false p .beginTx .ok s = some (none, { s with db := s.db.start p }) := by
    simp only [serve, answer, hsession]
  have htry : serve false p .tryLock .ok { s with db := s.db.start p } =
      some (.ok true, s.begun p) := by
    simp [serve, answer, Database.start, Database.put, hlock, State.begun]
  have hrows : serve false p (.selectBatch cfg.withDefaults.batchSize.toNat
      cfg.withDefaults.maxAttempts.toNat) (.rows []) (s.begun p) =
        some (.rows [subject], s.begun p) := by
    simp [serve, answer, State.begun, Database.start, Database.put, Database.acquire, Database.view,
      Database.changes, Database.applyAll, htables, select_subject hdue hlimit hattempts]
  have hctx : serve false p .ctxErr (.cancelled false) (s.begun p) = some (false, s.begun p) := by
    simp [serve, answer, State.begun, Database.start, Database.put, Database.acquire]
  apply Exists.intro
  refine ⟨?_, Machine.alone_ask hbegin (Machine.alone_ask htry (Machine.alone_ask hrows
    (Machine.alone_ask hctx rfl))), fun s' t d hactive htables' hd => ?_⟩
  · rfl
  have hsend (msg : Kafka.Message) : serve false p (.send subject.id msg) (.sent (some refusal)) s' =
      some (some refusal, s'.refused p) := by
    simp [serve, answer, hactive, State.refused]
  have hwrite : serve false p (.recordRejection subject.id (truncate refusal.text 1000) cfg.backoff)
      .ok (s'.refused p) = some (.ok (k + 1), (s'.refused p).stage p t []
        (.rejection subject.id (truncate refusal.text 1000) (t + d))) := by
    simp [serve, answer, State.refused, hactive, Database.view, Database.changes,
      Database.applyAll, htables', retryAt, hd]
  have hcommit (c : Change) : serve false p .commit .ok ((s'.refused p).stage p t [] c) =
      some (none, { s'.refused p with
        db := (s'.db.write p t [] [] c).commit Change.apply p [c] }) := by
    simp [serve, answer, State.stage, State.refused, Database.write, Database.put]
  have hroll (db : Database Nat Unit Change (List Row)) (hdb : db.session p = some .closed) :
      serve false p .rollback .ok { s'.refused p with db := db } =
        some (none, { s'.refused p with db := db }) := by
    simp [serve, answer, State.close, hdb]
  exact Machine.alone_ask (hsend _) (Machine.alone_ask hwrite (Machine.alone_ask (hcommit _)
    (Machine.alone_ask (hroll _ Database.put_session_self) rfl)))

variable {c : Conc.Config Nat Req Rep State (Bool × Config) Outcome}

/-- Nobody is at work. The row has `k` rejections and is due, and passes from `n` on are new. -/
structure Calm (n k : Nat) (c : Conc.Config Nat Req Rep State (Bool × Config) Outcome) :
    Prop where
  reachable : (passes false).Reachable State.init c
  fresh : ∀ q, n ≤ q → c.proc q = none ∧ c.shared.db.session q = none
  lock : c.shared.db.locks () = none
  row : ∃ next lastError, c.shared.db.tables = [⟨subject, k, next, lastError⟩] ∧
    next.all (· ≤ c.shared.db.clock)

/-- The next pass comes to the row, `elapsed` later the broker refuses it, and when it is due
again all is calm. -/
theorem Calm.pass (h : Calm n k c) (cfg : Config) (hk : (k : Int) < cfg.maxAttempts) :
    ∃ es c₁, (passes false).run c es = some c₁ ∧ c₁.shared = c.shared.begun n ∧
      Publishes c₁ n cfg.backoff subject.id ∧
      ∀ d, rejectDelay cfg.backoff k = some d → ∀ elapsed, ∃ es' c₂,
        (passes false).run ⟨c₁.shared.later elapsed, c₁.proc⟩
          (.step n (.sent (some refusal)) :: es') = some c₂ ∧ Calm (n + 1) (k + 1) c₂ ∧
        c₂.shared.db.clock = c₁.shared.db.clock + elapsed + (d - elapsed) ∧
        c₂.shared.log = (c₁.shared.refused n).log := by
  obtain ⟨next, lastError, htables, hdue⟩ := h.row
  obtain ⟨hproc, hsession⟩ := h.fresh n le_rfl
  obtain ⟨prog, hsending, hcomes, hends⟩ := pass_alone hsession h.lock htables hdue hk
  have haccept : (passes false).accept n (true, cfg) c.shared = some c.shared := by
    simp [passes, hsession]
  have hfirst := Machine.run_start hproc haccept hcomes
  refine ⟨_, _, hfirst, rfl, by simp [Publishes, hsending], fun d hd elapsed => ?_⟩
  have hactive : ((c.shared.begun n).later elapsed).db.session n =
      some (.active c.shared.db.clock []) := by
    simp [State.later, State.begun, Database.start, Database.put, Database.acquire]
  have hrest := Machine.run_alone (hends _ _ d hactive htables hd)
    (Function.update_self n (some ((true, cfg), prog)) c.proc)
  rw [Function.update_idem] at hrest
  have hsecond : (passes false).run ⟨(c.shared.begun n).later elapsed,
      Function.update c.proc n (some ((true, cfg), prog))⟩
        ([.sent (some refusal), .ok, .ok, .ok].map (.step n) ++ [.env (.tick (d - elapsed))]) =
      some ⟨(((c.shared.begun n).later elapsed).settled n c.shared.db.clock
        (c.shared.db.clock + d)).later (d - elapsed),
        Function.update c.proc n (some ((true, cfg), .ret (0, 1, none)))⟩ := by
    rw [Machine.run_append, hrest]
    rfl
  refine ⟨_, _, hsecond, ⟨?_, fun q hq => ?_, ?_, ?_⟩, rfl, rfl⟩
  · exact ((h.reachable.run hfirst).step (.env (.tick elapsed)) rfl).run hsecond
  · have hne : q ≠ n := by omega
    obtain ⟨hproc, hsession⟩ := h.fresh q (by omega)
    simp [State.later, State.settled, State.refused, State.begun, Database.commit, Database.close,
      Database.write, Database.acquire, Database.put, Database.start, hne, hproc, hsession]
  · simp [State.later, State.settled, State.refused, State.begun, Database.commit, Database.close,
      Database.write, Database.acquire, Database.put, Database.start]
  · refine ⟨some (c.shared.db.clock + d), some (truncate refusal.text 1000), ?_, ?_⟩
    · change Change.apply (.rejection subject.id (truncate refusal.text 1000)
        (c.shared.db.clock + d)) c.shared.db.tables = _
      rw [htables]
      rfl
    · exact decide_eq_true (show c.shared.db.clock + d ≤ c.shared.db.clock + elapsed + (d - elapsed)
        by omega)

theorem exists_calm (cfg : Config) (hsome : (rejectDelay cfg.backoff k).isSome)
    (hk : (k : Int) < cfg.maxAttempts) : ∃ c, Calm k k c := by
  induction k with
  | zero =>
    refine ⟨_, Machine.Reachable.init.step (.env (.enqueue subject)) rfl, fun q _ => ⟨rfl, rfl⟩, rfl,
      none, none, rfl, rfl⟩
  | succ k ih =>
    have hsome' := rejectDelay_isSome_of_le (Nat.le_succ k) hsome
    obtain ⟨c, hc⟩ := ih hsome' (by omega)
    obtain ⟨d, hd⟩ := isSome_iff_exists.mp hsome'
    obtain ⟨es, c₁, -, -, -, hrest⟩ := hc.pass cfg (by omega)
    obtain ⟨es', c₂, -, hc₂, -⟩ := hrest d hd 0
    exact ⟨c₂, hc₂⟩

/-- Whatever the backoff, the count and the time taken, some run publishes the row again at the
first moment when it is due and the rejection is committed. -/
theorem exists_retry {backoff d : Nat} (cfg : Config) (hcfg : cfg.backoff = backoff)
    (hd : rejectDelay backoff k = some d) (elapsed : Nat) : ∃ x : Retry backoff k elapsed,
      x.c₂.shared.db.clock = x.c₁.shared.db.clock + (d - elapsed) := by
  subst hcfg
  let patient : Config := { cfg with maxAttempts := k + 2 }
  have hsome : (rejectDelay patient.backoff k).isSome := isSome_iff_exists.mpr ⟨d, hd⟩
  obtain ⟨c, hc⟩ := exists_calm patient hsome (by simp only [patient]; omega)
  obtain ⟨es, c₁, hrun, hbegun, hfirst, hrest⟩ := hc.pass patient (by simp only [patient]; omega)
  obtain ⟨es', c₂, hrun', hc₂, hclock, hlog⟩ := hrest d hd elapsed
  obtain ⟨es'', c₃, hrun'', hbegun', hsecond, -⟩ :=
    hc₂.pass patient (by simp only [patient]; omega)
  obtain ⟨next, lastError, htables, -⟩ := hc.row
  obtain ⟨next', lastError', htables', -⟩ := hc₂.row
  refine ⟨⟨⟨c₁.shared.later elapsed, c₁.proc⟩, c₃, k, k + 1, subject.id, patient.backoff,
    c.shared.db.clock, [], refusal, es' ++ es'', ⟨subject, k, next, lastError⟩,
    ⟨subject, k + 1, next', lastError'⟩, ?_, hfirst, ?_, ?_, ?_, ?_, hsecond, ?_, ?_, ?_⟩, ?_⟩
  · exact (hc.reachable.run hrun).step (.env (.tick elapsed)) rfl
  · simp [hbegun, State.later, State.begun, Database.start, Database.put, Database.acquire]
  · rw [hbegun]
    rfl
  · rw [← cons_append, Machine.run_append, hrun']
    exact hrun''
  · have hlast : c₃.shared.log = (c₁.shared.refused k).log := by
      rw [hbegun']
      exact hlog
    rw [hlast]
    exact attempts_cons _ _ _
  · simp [hbegun', State.begun, Database.start, Database.put, Database.acquire]
  · rw [hbegun]
    exact ⟨htables ▸ mem_singleton_self _, rfl, rfl⟩
  · rw [hbegun']
    exact ⟨htables' ▸ mem_singleton_self _, rfl, rfl⟩
  · dsimp only
    rw [hbegun']
    exact hclock

def Retry.Spaced {backoff k elapsed : Nat} (x : Retry backoff k elapsed) : Prop :=
  x.c₁.shared.db.clock + backoffDelay backoff k ≤ x.c₂.shared.db.clock

theorem forall_spaced_iff (cfg : Config) (k elapsed : Nat) :
    (∀ x : Retry cfg.backoff k elapsed, x.Spaced) ↔
      ∀ d, rejectDelay cfg.backoff k = some d → elapsed + backoffDelay cfg.backoff k ≤ d := by
  have hpos : 0 < backoffDelay cfg.backoff k := by
    have hbackoff : 0 < cfg.backoff := by
      simp only [Config.backoff, Config.withDefaults]
      split_ifs <;> omega
    exact lt_min (Nat.mul_pos hbackoff (Nat.two_pow_pos k)) (by decide)
  constructor
  · intro hspaced d hd
    obtain ⟨x, hx⟩ := exists_retry cfg rfl hd elapsed
    have hwait := hspaced x
    rw [Retry.Spaced, hx] at hwait
    omega
  · intro hcovers x
    obtain ⟨d, hd, hle⟩ := x.waits
    have hcover := hcovers d hd
    unfold Retry.Spaced
    omega

/-- Every run keeps the backoff of a rejection that comes `elapsed` after its pass began exactly
if the delay that the statement computes covers both. So `elapsed` is at most what the rounding to
microseconds adds, and with a backoff of whole microseconds the rejection comes at the instant its
pass began. -/
theorem rejected_row_waits (cfg : Config) (k elapsed : Nat) :
    ((∀ x : Retry cfg.backoff k elapsed, x.Spaced) ↔
      ∀ d, rejectDelay cfg.backoff k = some d → elapsed + backoffDelay cfg.backoff k ≤ d) ∧
    ((rejectDelay cfg.backoff k).isSome →
      (backoffDelay cfg.backoff k % 1000 ≠ 500 → ((∀ x : Retry cfg.backoff k elapsed, x.Spaced) ↔
        elapsed + backoffDelay cfg.backoff k ≤ wholeMicros (backoffDelay cfg.backoff k))) ∧
      (1000 ∣ cfg.backoff → ((∀ x : Retry cfg.backoff k elapsed, x.Spaced) ↔ elapsed = 0))) := by
  have hiff := forall_spaced_iff cfg k elapsed
  refine ⟨hiff, fun hsome => ?_⟩
  obtain ⟨d, hd⟩ := isSome_iff_exists.mp hsome
  have hround : backoffDelay cfg.backoff k % 1000 ≠ 500 →
      ((∀ x : Retry cfg.backoff k elapsed, x.Spaced) ↔
        elapsed + backoffDelay cfg.backoff k ≤ wholeMicros (backoffDelay cfg.backoff k)) := by
    intro hhalf
    rw [hiff, ← rejectDelay_eq hd hhalf, hd]
    exact ⟨fun hcovers => hcovers d rfl, fun hle d' hd' => some.inj hd' ▸ hle⟩
  refine ⟨hround, fun hwhole => ?_⟩
  obtain ⟨m, hm⟩ := dvd_backoffDelay hwhole k
  rw [hround (by omega), wholeMicros]
  omega

/-- The broker takes two seconds to refuse the row, whose backoff is a second. It has been due for
a second by then, and the next pass publishes it in the same instant. -/
theorem slowPass_retries_at_once :
    ∃ x : Retry (10 ^ 9) 0 (2 * 10 ^ 9), x.c₂.shared.db.clock = x.c₁.shared.db.clock ∧
      ¬ x.Spaced := by
  have hd : rejectDelay (10 ^ 9) 0 = some (10 ^ 9) := by decide +kernel
  obtain ⟨x, hx⟩ := exists_retry ⟨"tasks.events", 0, 0, 10 ^ 9⟩ (by decide) hd (2 * 10 ^ 9)
  have hdelay : backoffDelay (10 ^ 9) 0 = 10 ^ 9 := by decide
  refine ⟨x, hx, fun hspaced => ?_⟩
  rw [Retry.Spaced, hx, hdelay] at hspaced
  omega

end GolangBasics.Tasks.Outbox
