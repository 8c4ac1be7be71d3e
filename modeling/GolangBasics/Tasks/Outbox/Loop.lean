import GolangBasics.Backoff
import GolangBasics.Conc.Threads

/-! `Relay.Run`, the loop around the passes of the outbox relay, and the requests that wake it
after their commits. -/
namespace GolangBasics.Tasks.Outbox.Loop
open Conc Threads Option

/-- The fields of `outbox.Config` that the loop reads. Durations are nanoseconds. -/
structure Timing where
  pollInterval : Int
  batchSize : Int
  maxBackoff : Int

def Timing.withDefaults (c : Timing) : Timing where
  pollInterval := if c.pollInterval ≤ 0 then 10 ^ 9 else c.pollInterval
  batchSize := if c.batchSize ≤ 0 then 100 else c.batchSize
  maxBackoff := if c.maxBackoff ≤ 0 then 30 * 10 ^ 9 else c.maxBackoff

/-- Where the loop is, with its count of failed passes. -/
inductive Place where
  | begin (failures : Nat)
  | passing (failures : Nat)
  /-- The last select, with the timer set to `due`. -/
  | waiting (failures : Nat) (due : Int)
  | stopped

/-- `wake` says that the channel holds its one value. The last two fields are only on record:
the commits so far, and those before the last pass began. -/
structure Shared where
  place : Place
  wake : Bool
  cancelled : Bool
  clock : Int
  commits : Nat
  seen : Nat

/-- A request commits its event, calls `Wake` and is done; `n` is the number of its commit. -/
inductive Request where
  | commit
  | wake (n : Nat)
  | woke (n : Nat)

inductive Env where
  | relayOnce
  | ended (taken : Int) (failed : Bool) (draw : Int → Int)
  | timer
  | woken
  | done
  | tick (d : Nat)
  | cancel

/-- The count of failures after a pass, and how long to wait. -/
def Timing.pause (cfg : Timing) (failures : Nat) (taken : Int) (failed : Bool) (draw : Int → Int) :
    Option (Nat × Int) :=
  if failed then
    (backoff draw (failures + 1 : Nat) cfg.pollInterval cfg.maxBackoff).map (failures + 1, ·)
  else if taken = cfg.batchSize then some (0, 0)
  else some (0, cfg.pollInterval)

def Shared.rest (m : Shared) (f : Nat) (wait : Int) : Shared :=
  { m with place :=
      if wait = 0 then if m.cancelled then .stopped else .begin f
      else .waiting f (m.clock + wait) }

def Timing.env (cfg : Timing) (e : Env) (m : Shared) : Option Shared :=
  match e, m.place with
  | .relayOnce, .begin f => some { m with place := .passing f, seen := m.commits }
  | .ended taken failed draw, .passing f =>
    (cfg.pause f taken failed draw).map fun x => m.rest x.1 x.2
  | .timer, .waiting f due => if due ≤ m.clock then some { m with place := .begin f } else none
  | .woken, .waiting f _ =>
    -- after a failure the channel of the select is nil
    if f = 0 ∧ m.wake then some { m with place := .begin f, wake := false } else none
  | .done, .waiting _ _ => if m.cancelled then some { m with place := .stopped } else none
  | .tick d, _ => some { m with clock := m.clock + d }
  | .cancel, _ => some { m with cancelled := true }
  | _, _ => none

/-- `Wake` finds room in the channel or leaves it full. -/
def Request.step (_ : Nat) : Request → Unit → Shared → Option (Request × Shared)
  | .commit, _, m => some (.wake m.commits, { m with commits := m.commits + 1 })
  | .wake n, _, m => some (.woke n, { m with wake := true })
  | .woke _, _, _ => none

/-- `NewRelay` with a publisher, its `Run`, and any number of requests. -/
def relay (cfg : Timing) : Threads Shared Request Unit Env where
  start l := l matches .commit
  step := Request.step
  env := cfg.withDefaults.env

def start : Shared := ⟨.begin 0, false, false, 0, 0, 0⟩

def Answered (m : Shared) : Request → Prop
  | .commit => True
  | .wake n => n < m.commits
  | .woke n => n < m.commits ∧ (n < m.seen ∨ (∃ f, m.place = .begin f) ∨ m.wake = true)

variable {cfg : Timing} {m m' : Shared} {c c' : Pool Shared Request} {f : Nat} {due : Int}

/-- What a step of the loop or of the clock does. -/
structure Turn (m m' : Shared) : Prop where
  commits : m'.commits = m.commits
  passes : m'.seen = m.commits ∨ (∃ f, m'.place = .begin f) ∨
    m'.seen = m.seen ∧ m'.wake = m.wake ∧ ∀ f, m.place = .begin f → m'.place = .begin f
  clock : m.clock ≤ m'.clock
  rests : ∀ f due, m.place = .waiting (f + 1) due →
    m'.place = m.place ∨ m'.place = .stopped ∨ due ≤ m.clock
  stops : m.place = .stopped → m'.place = .stopped

theorem turn_of_env {e : Env} (h : cfg.env e m = some m') : Turn m m' := by
  unfold Timing.env at h
  split at h
  case h_1 f hplace =>
    cases h
    exact ⟨rfl, .inl rfl, le_rfl, by simp [hplace], by simp [hplace]⟩
  case h_2 f hplace =>
    obtain ⟨⟨f, wait⟩, -, rfl⟩ := map_eq_some_iff.mp h
    exact ⟨rfl, .inr (.inr ⟨rfl, rfl, by simp [hplace]⟩), le_rfl, by simp [hplace],
      by simp [hplace]⟩
  case h_3 f due hplace =>
    split_ifs at h with hdue
    cases h
    refine ⟨rfl, .inr (.inl ⟨f, rfl⟩), le_rfl, fun f' due' hwait => ?_, by simp [hplace]⟩
    obtain ⟨-, rfl⟩ := Place.waiting.inj (hplace.symm.trans hwait)
    exact .inr (.inr hdue)
  case h_4 f due hplace =>
    split_ifs at h with hwoken
    cases h
    exact ⟨rfl, .inr (.inl ⟨f, rfl⟩), le_rfl, by simp [hplace, hwoken.1], by simp [hplace]⟩
  case h_5 f due hplace =>
    split_ifs at h
    cases h
    exact ⟨rfl, .inr (.inr ⟨rfl, rfl, by simp [hplace]⟩), le_rfl,
      fun _ _ _ => .inr (.inl rfl), fun _ => rfl⟩
  case h_6 d =>
    cases h
    exact ⟨rfl, .inr (.inr ⟨rfl, rfl, fun _ => id⟩), Int.le_add_of_nonneg_right (by omega),
      fun _ _ _ => .inl rfl, id⟩
  case h_7 =>
    cases h
    exact ⟨rfl, .inr (.inr ⟨rfl, rfl, fun _ => id⟩), le_rfl, fun _ _ _ => .inl rfl, id⟩
  case h_8 => cases h

theorem Answered.env {l : Request} {e : Env} (hl : Answered m l) (h : cfg.env e m = some m') :
    Answered m' l := by
  obtain ⟨hcommits, hpasses, -⟩ := turn_of_env h
  cases l with
  | commit => trivial
  | wake n =>
    rw [Answered, hcommits]
    exact hl
  | woke n =>
    obtain ⟨hn, hl⟩ := hl
    refine ⟨by rwa [hcommits], ?_⟩
    rcases hpasses with hseen | hbegin | ⟨hseen, hwake, hplace⟩
    · exact .inl (by rwa [hseen])
    · exact .inr (.inl hbegin)
    · rw [hseen, hwake]
      exact hl.imp_right (Or.imp_left fun ⟨f, hf⟩ => ⟨f, hplace f hf⟩)

theorem answered_of_reachable (hc : (relay cfg).Reachable start c) :
    Pool.Each (fun _ => Answered) c := by
  refine ReachableIf.invariant hc (by simp [Pool.Each]) ?_ ?_ ?_
  · intro c l hall hl
    cases l with
    | commit => exact Pool.each_spawn hall trivial
    | wake n | woke n => cases hl
  · intro c i x l l' m hall _ hi hstep
    cases l with
    | commit =>
      cases hstep
      refine Pool.each_set hall (Nat.lt_succ_self _) fun j k _ _ hk => ?_
      cases k with
      | commit => trivial
      | wake n => exact Nat.lt_succ_of_lt hk
      | woke n => exact ⟨Nat.lt_succ_of_lt hk.1, hk.2⟩
    | wake n =>
      cases hstep
      refine Pool.each_set hall ⟨hall i _ hi, .inr (.inr rfl)⟩ fun j k _ _ hk => ?_
      cases k with
      | commit | wake n => exact hk
      | woke n => exact ⟨hk.1, .inr (.inr rfl)⟩
    | woke n => cases hstep
  · intro c e m hall _ henv
    exact Pool.each_env hall fun _ _ hl => hl.env henv

/-- Once `Wake` has returned, a pass has begun after the commit, one is about to begin, or the
channel is full, and then a loop that waits after a pass without an error need not wait for its
timer. -/
theorem wake_not_lost {i n : Nat} (hc : (relay cfg).Reachable start c)
    (hi : c.threads[i]? = some (.woke n)) :
    n < c.shared.seen ∨ (∃ f, c.shared.place = .begin f) ∨
      c.shared.wake = true ∧ ∀ due, c.shared.place = .waiting 0 due →
        ∃ c', (relay cfg).next c (.env .woken) = some c' ∧ c'.shared.place = .begin 0 := by
  obtain ⟨-, hseen | hbegin | hwake⟩ := answered_of_reachable hc i _ hi
  · exact .inl hseen
  · exact .inr (.inl hbegin)
  · refine .inr (.inr ⟨hwake, fun due hplace => ?_⟩)
    refine ⟨⟨{ c.shared with place := .begin 0, wake := false }, c.threads⟩, ?_, rfl⟩
    simp [next, relay, Timing.env, hplace, hwake]

/-- A commit while the loop waits after a pass. -/
theorem wake_not_lost_waiting :
    ∃ c, (relay ⟨0, 0, 0⟩).Reachable start c ∧ c.threads[0]? = some (.woke 0) ∧
      (0 < c.shared.seen ∨ (∃ f, c.shared.place = .begin f) ∨
        c.shared.wake = true ∧ ∀ due, c.shared.place = .waiting 0 due →
          ∃ c', (relay ⟨0, 0, 0⟩).next c (.env .woken) = some c' ∧ c'.shared.place = .begin 0) := by
  obtain ⟨c, hrun, hi⟩ : ∃ c, (relay ⟨0, 0, 0⟩).run ⟨start, []⟩ [.env .relayOnce,
      .env (.ended 0 false id), .spawn .commit, .step 0 (), .step 0 ()] = some c ∧
      c.threads[0]? = some (.woke 0) := ⟨_, rfl, rfl⟩
  exact ⟨c, .run .init hrun, hi, wake_not_lost (.run .init hrun) hi⟩

/-- The loop keeps to a wait after a failure until its timer expires. -/
def Rests (f : Nat) (due : Int) (m : Shared) : Prop :=
  m.place = .waiting (f + 1) due ∨ m.place = .stopped ∨ due ≤ m.clock

theorem Rests.turn (hm : Rests f due m) (h : Turn m m') : Rests f due m' := by
  rcases hm with hwait | hstop | hdue
  · rcases h.rests f due hwait with hsame | hstop | hdue
    · exact .inl (hsame.trans hwait)
    · exact .inr (.inl hstop)
    · exact .inr (.inr (hdue.trans h.clock))
  · exact .inr (.inl (h.stops hstop))
  · exact .inr (.inr (hdue.trans h.clock))

theorem Rests.run {as : List (Act Request Unit Env)} (hc : Rests f due c.shared)
    (h : (relay cfg).run c as = some c') : Rests f due c'.shared := by
  induction as generalizing c with
  | nil =>
    obtain rfl := some.inj h
    exact hc
  | cons a as ih =>
    obtain ⟨c₁, hnext, hrun⟩ := bind_eq_some_iff.mp h
    refine ih ?_ hrun
    rcases next_cases hnext with ⟨l, -, -, rfl⟩ | ⟨i, x, l, l', m, -, -, hstep, rfl⟩ |
      ⟨e, m, -, henv, rfl⟩
    · exact hc
    · cases l <;> cases hstep <;> exact hc
    · exact hc.turn (turn_of_env henv)

/-- No pass begins after the failure of a pass before half of the doubled and capped interval is
over, whatever calls of `Wake` there are. -/
theorem failed_pass_backs_off {as : List (Act Request Unit Env)} {taken : Int} {draw : Int → Int}
    (hmax : cfg.withDefaults.maxBackoff < 2 ^ 62) (hplace : c.shared.place = .passing f)
    (h : (relay cfg).run c (.env (.ended taken true draw) :: as) = some c')
    (hearly : c'.shared.clock < c.shared.clock +
      min (cfg.withDefaults.pollInterval * 2 ^ f) cfg.withDefaults.maxBackoff / 2) :
    (∃ due, c'.shared.place = .waiting (f + 1) due) ∨ c'.shared.place = .stopped := by
  have hpoll : 0 < cfg.withDefaults.pollInterval := by
    dsimp only [Timing.withDefaults]
    split_ifs <;> omega
  have hpos : 0 < cfg.withDefaults.maxBackoff := by
    dsimp only [Timing.withDefaults]
    split_ifs <;> omega
  obtain ⟨c₁, hnext, hrun⟩ := bind_eq_some_iff.mp h
  obtain ⟨m, henv, rfl⟩ := map_eq_some_iff.mp hnext
  have hgrow := Backoff.le_mul_two_pow (k := f) hpoll
  obtain ⟨x, hx, hlow, -, hx0⟩ := Backoff.equalJitter_spec draw
    (d := min (cfg.withDefaults.pollInterval * 2 ^ f) cfg.withDefaults.maxBackoff)
    (by omega) (by omega)
  have hwait : m = { c.shared with place := .waiting (f + 1) (c.shared.clock + x) } := by
    have hmin := (Backoff.min_doubled hmax f hpoll).1
    simp only [relay, Timing.env, hplace, Timing.pause, if_true, backoff, Nat.cast_add, Nat.cast_one,
      Int.add_sub_cancel, Int.toNat_natCast, hmin, hx, map_some, Option.some.injEq] at henv
    rw [← henv, Shared.rest, if_neg (by omega)]
  subst hwait
  rcases Rests.run (.inl rfl) hrun with hwait | hstop | hdue
  · exact .inl ⟨_, hwait⟩
  · exact .inr hstop
  · omega

/-- The default interval of a second, and a nanosecond later. -/
theorem failed_pass_backs_off_default :
    ∃ c', (relay ⟨0, 0, 0⟩).run ⟨{ start with place := .passing 0 }, []⟩
        [.env (.ended 0 true fun _ => 0), .env (.tick 1)] = some c' ∧
      ((∃ due, c'.shared.place = .waiting 1 due) ∨ c'.shared.place = .stopped) := by
  have hrun : ∃ c', (relay ⟨0, 0, 0⟩).run ⟨{ start with place := .passing 0 }, []⟩
      [.env (.ended 0 true fun _ => 0), .env (.tick 1)] = some c' ∧ c'.shared.clock = 1 :=
    ⟨_, rfl, rfl⟩
  obtain ⟨c', hrun, hclock⟩ := hrun
  exact ⟨c', hrun, failed_pass_backs_off (by decide) rfl hrun (by rw [hclock]; decide)⟩

end GolangBasics.Tasks.Outbox.Loop
