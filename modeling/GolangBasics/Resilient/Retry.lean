import GolangBasics.Resilient.Attempt

/-! The retry loop of `send`. A run of an admitted call is taken apart into the attempts that
were followed by another, each with the wait in between, and what came last. -/
namespace GolangBasics.Resilient
open Conc Prog List

/-- An attempt that failed and was followed by another: its run, its error, the jitter drawn
and the time that was left to the caller's deadline. -/
structure Retried where
  events : List Said
  err : OutboundError
  jitter : Int
  left : Option Int

def Retried.wait (r : Retried) : Int := max r.jitter r.err.retryAfter

/-- The unit of the budget for a retry; a target without a budget grants every one. -/
def Policy.granted (p : Policy) : List Said := if p.budget then [⟨.tryRetry p.name, true⟩] else []

def slept (d : Int) : Said := if d ≤ 0 then ⟨.callerErr, none⟩ else ⟨.sleep d, true⟩

def Retried.round (p : Policy) (r : Retried) (n : Nat) : List Said :=
  ⟨.callerErr, none⟩ :: r.events ++
    (⟨.fullJitter n p.retryBaseDelay p.retryMaxDelay, r.jitter⟩ :: ⟨.untilDeadline, r.left⟩ ::
      (p.granted ++ [slept r.wait]))

/-- What the loop ends with: the caller's context has ended, a response, the error of an
attempt, or a wait that was cut short. -/
inductive Last where
  | ended (e : CtxErr)
  | answered (events : List Said) (resp : Response)
  | failed (events : List Said) (err : OutboundError) (rest : List Said)
  | interrupted (events : List Said) (err : OutboundError) (rest : List Said) (e : Option CtxErr)

namespace Last

def round : Last → List Said
  | ended e => [⟨.callerErr, some e⟩]
  | answered events _ => ⟨.callerErr, none⟩ :: events
  | failed events _ rest | interrupted events _ rest _ => ⟨.callerErr, none⟩ :: events ++ rest

def result (p : Policy) : Last → Except OutboundError Response
  | ended e => .error { kind := .canceled, target := p.name, err := some (.ctx e) }
  | answered _ resp => .ok resp
  | failed _ err _ => .error err
  | interrupted _ _ _ e => .error { kind := .canceled, target := p.name, err := e.map Cause.ctx }

def attempts : Last → Nat
  | ended _ => 0
  | answered .. | failed .. | interrupted .. => 1

end Last

structure Sending where
  retried : List Retried
  last : Last

def Sending.events (p : Policy) (n : Nat) (s : Sending) : List Said :=
  (s.retried.zipIdx n).flatMap (fun x => x.1.round p x.2) ++ s.last.round

def Sending.attempts (s : Sending) : Nat := s.retried.length + s.last.attempts

/-- Attempt `n` sends nothing, or the whole body once. Before the first attempt nothing has
been read of the request's own body; after it there may be anything left. -/
def Whole (req : Request) (original : List UInt8) (n : Nat) (events : List Said) : Prop :=
  ∀ own, (n = 1 → own = original) →
    events.filterMap (req.sent own) = [] ∨ events.filterMap (req.sent own) = [original]

/-- Why there was another attempt after attempt `n`. -/
structure Retried.Lawful (p : Policy) (req : Request) (original : List UInt8) (n : Nat)
    (r : Retried) : Prop where
  ran : (p.attempt req n).Runs r.events (.error r.err)
  whole : Whole req original n r.events
  retryable : retryable r.err
  after : r.err.retryAfter ≤ r.wait
  capped : r.wait ≤ p.retryMaxDelay
  deadline : ∀ left, r.left = some left → r.wait < left

def Declines : Said → Prop
  | ⟨.fullJitter .., _⟩ | ⟨.untilDeadline, _⟩ | ⟨.tryRetry _, false⟩ => True
  | _ => False

def CutsShort : Said → Prop
  | ⟨.fullJitter .., _⟩ | ⟨.untilDeadline, _⟩ | ⟨.tryRetry _, _⟩ | ⟨.sleep _, false⟩
  | ⟨.callerErr, _⟩ => True
  | _ => False

def Last.Lawful (p : Policy) (req : Request) (original : List UInt8) (n : Nat) : Last → Prop
  | .ended _ => True
  | .answered events resp =>
    (p.attempt req n).Runs events (.ok resp) ∧ Whole req original n events
  | .failed events err rest =>
    (p.attempt req n).Runs events (.error err) ∧ Whole req original n events ∧
      ∀ e ∈ rest, Declines e
  | .interrupted events err rest e =>
    (p.attempt req n).Runs events (.error err) ∧ Whole req original n events ∧
      (∀ e ∈ rest, CutsShort e) ∧
      ((∃ d, (⟨.sleep d, false⟩ : Said) ∈ rest) ∨ ∃ e, (⟨.callerErr, some e⟩ : Said) ∈ rest) ∧
      ⟨.callerErr, e⟩ ∈ rest

/-- A run from attempt `n` on with at most `limit` attempts. -/
structure Sending.Lawful (p : Policy) (req : Request) (original : List UInt8) (n limit : Nat)
    (s : Sending) : Prop where
  count : s.attempts ≤ limit
  retried : ∀ r k, (r, k) ∈ s.retried.zipIdx n → r.Lawful p req original k
  last : s.last.Lawful p req original (n + s.retried.length)

variable {p : Policy} {req : Request} {original : List UInt8} {n limit : Nat}
  {events : List Said} {out : Except OutboundError Response}

theorem round_runs {failed : OutboundError → Call (Except OutboundError Response)}
    (h : (p.round req n failed).Runs events out) :
    (∃ e, events = [⟨.callerErr, some e⟩] ∧ out = (Last.ended e).result p) ∨
      (∃ attempt resp, events = ⟨.callerErr, none⟩ :: attempt ∧
        (p.attempt req n).Runs attempt (.ok resp) ∧ out = .ok resp) ∨
      ∃ attempt err rest, events = ⟨.callerErr, none⟩ :: attempt ++ rest ∧
        (p.attempt req n).Runs attempt (.error err) ∧ (failed err).Runs rest out := by
  obtain ⟨ended, rest, rfl, hrest⟩ := runs_request_bind.mp h
  cases ended with
  | some e =>
    obtain ⟨rfl, rfl⟩ := runs_ret.mp hrest
    exact .inl ⟨e, rfl, rfl⟩
  | none =>
    obtain ⟨attempt, result, rest, rfl, hattempt, hrest⟩ := runs_bind.mp hrest
    cases result with
    | ok resp =>
      obtain ⟨rfl, rfl⟩ := runs_ret.mp hrest
      rw [append_nil]
      exact .inr (.inl ⟨attempt, resp, rfl, hattempt, rfl⟩)
    | error err => exact .inr (.inr ⟨attempt, err, rest, rfl, hattempt, hrest⟩)

theorem tryRetry_runs {granted : Bool} (h : p.tryRetry.Runs events granted) :
    events = if granted then p.granted else [⟨.tryRetry p.name, false⟩] := by
  unfold Policy.tryRetry at h
  unfold Policy.granted
  split at h
  · rename_i hbudget
    obtain rfl := runs_request.mp h
    cases granted <;> simp [hbudget]
  · rename_i hbudget
    obtain ⟨rfl, rfl⟩ := runs_ret.mp h
    simp [hbudget]

theorem sleep_runs {d : Int} {whole : Bool} (h : (sleep d).Runs events whole) :
    if whole then events = [slept d]
    else events = [⟨.sleep d, false⟩] ∨ ∃ e, events = [⟨.callerErr, some e⟩] := by
  unfold sleep at h
  unfold slept
  split at h
  · rename_i hnow
    obtain ⟨ended, rest, rfl, hrest⟩ := runs_ask.mp h
    obtain ⟨rfl, rfl⟩ := runs_ret.mp hrest
    cases ended <;> simp [hnow]
  · rename_i hlater
    obtain rfl := runs_request.mp h
    cases whole <;> simp [hlater]

/-- The rest of the loop after attempt `n` has failed, with `left + 1` more to make. -/
def Policy.onFailure (p : Policy) (req : Request) (left n : Nat) (oe : OutboundError) :
    Call (Except OutboundError Response) := do
  if !retryable oe then
    return .error oe
  let jitter ← ask (.fullJitter n p.retryBaseDelay p.retryMaxDelay)
  let delay : Int := max jitter oe.retryAfter
  if p.retryMaxDelay < oe.retryAfter then
    return .error oe
  if Option.any (· ≤ delay) (← ask .untilDeadline) then
    return .error oe
  if !(← p.tryRetry) then
    return .error oe
  if !(← sleep delay) then
    let e ← ask .callerErr
    return .error { kind := .canceled, target := p.name, err := Option.map Cause.ctx e }
  p.tries req left (n + 1)

theorem tries_succ (p : Policy) (req : Request) (left n : Nat) :
    p.tries req (left + 1) n = p.round req n (p.onFailure req left n) := rfl

variable {left : Nat}

/-- It gives up, is cut short, or waits and goes on. -/
theorem onFailure_runs {err : OutboundError} (h : (p.onFailure req left n err).Runs events out) :
    ((∀ e ∈ events, Declines e) ∧ out = .error err) ∨
      (∃ e, (∀ e ∈ events, CutsShort e) ∧
        ((∃ d, (⟨.sleep d, false⟩ : Said) ∈ events) ∨
          ∃ e, (⟨.callerErr, some e⟩ : Said) ∈ events) ∧
        ⟨.callerErr, e⟩ ∈ events ∧
        out = .error { kind := .canceled, target := p.name, err := e.map Cause.ctx }) ∨
      ∃ jitter time rest, retryable err ∧ err.retryAfter ≤ p.retryMaxDelay ∧
        (∀ left, time = some left → max jitter err.retryAfter < left) ∧
        events = ⟨.fullJitter n p.retryBaseDelay p.retryMaxDelay, jitter⟩ ::
          ⟨.untilDeadline, time⟩ :: (p.granted ++ [slept (max jitter err.retryAfter)]) ++ rest ∧
        (p.tries req left (n + 1)).Runs rest out := by
  unfold Policy.onFailure at h
  split at h
  · obtain ⟨rfl, rfl⟩ := runs_ret.mp h
    exact .inl ⟨by simp, rfl⟩
  rename_i hretryable
  obtain ⟨jitter, _, rfl, hjitter⟩ := runs_request_bind.mp h
  split at hjitter
  · obtain ⟨rfl, rfl⟩ := runs_ret.mp hjitter
    exact .inl ⟨by simp [Declines], rfl⟩
  rename_i hafter
  obtain ⟨time, _, rfl, hdeadline⟩ := runs_request_bind.mp hjitter
  split at hdeadline
  · obtain ⟨rfl, rfl⟩ := runs_ret.mp hdeadline
    exact .inl ⟨by simp [Declines], rfl⟩
  rename_i htime
  obtain ⟨budget, granted, _, rfl, hbudget, hgranted⟩ := runs_bind.mp hdeadline
  obtain rfl := tryRetry_runs hbudget
  cases granted with
  | false =>
    obtain ⟨rfl, rfl⟩ := runs_ret.mp hgranted
    exact .inl ⟨by simp [Declines], rfl⟩
  | true =>
    obtain ⟨pause, whole, rest, rfl, hpause, hrest⟩ := runs_bind.mp hgranted
    have hslept := sleep_runs hpause
    cases whole with
    | false =>
      obtain ⟨e, _, rfl, hcanceled⟩ := runs_request_bind.mp hrest
      obtain ⟨rfl, rfl⟩ := runs_ret.mp hcanceled
      have hcuts : ∀ x ∈ p.granted, CutsShort x := by
        unfold Policy.granted
        split <;> simp [CutsShort]
      have hended : (∀ x ∈ pause, CutsShort x) ∧
          ((∃ d, (⟨.sleep d, false⟩ : Said) ∈ pause) ∨
            ∃ e, (⟨.callerErr, some e⟩ : Said) ∈ pause) := by
        rcases hslept with rfl | ⟨e, rfl⟩ <;> simp [CutsShort]
      refine .inr (.inl ⟨e, ?_, ?_, by simp, rfl⟩)
      · simp only [if_true, forall_mem_cons, forall_mem_append]
        exact ⟨trivial, trivial, hcuts, hended.1, trivial, by simp⟩
      · rcases hended.2 with ⟨d, hd⟩ | ⟨e, he⟩
        · exact .inl ⟨d, by simp [hd]⟩
        · exact .inr ⟨e, by simp [he]⟩
    | true =>
      obtain rfl : pause = [slept (max jitter err.retryAfter)] := hslept
      have hretryable : retryable err = true := by simpa using hretryable
      refine .inr (.inr ⟨jitter, time, rest, hretryable, by omega, ?_, ?_, hrest⟩)
      · rintro left rfl
        simpa using htime
      · simp

theorem Sending.Lawful.single {last : Last} (h : last.Lawful p req original n) :
    (⟨[], last⟩ : Sending).Lawful p req original n (left + 1) := by
  refine ⟨?_, by simp, h⟩
  cases last <;> simp [Sending.attempts, Last.attempts]

theorem Sending.Lawful.cons {s : Sending} {r : Retried} (hr : r.Lawful p req original n)
    (h : s.Lawful p req original (n + 1) limit) :
    (⟨r :: s.retried, s.last⟩ : Sending).Lawful p req original n (limit + 1) := by
  refine ⟨?_, ?_, ?_⟩
  · have hcount := h.count
    simp only [Sending.attempts, length_cons] at hcount ⊢
    omega
  · intro r' k hmem
    rw [zipIdx_cons] at hmem
    rcases mem_cons.mp hmem with heq | hmem
    · cases heq
      exact hr
    · exact h.retried r' k hmem
  · have hlast := h.last
    rw [length_cons, ← Nat.add_assoc, Nat.add_right_comm]
    exact hlast

theorem Sending.events_cons (p : Policy) (n : Nat) (r : Retried) (s : Sending) :
    (⟨r :: s.retried, s.last⟩ : Sending).events p n = r.round p n ++ s.events p (n + 1) := by
  simp [Sending.events, zipIdx_cons]

theorem plausible_append {xs ys : List Said} :
    Plausible.all original (xs ++ ys) ↔ Plausible.all original xs ∧ Plausible.all original ys :=
  forall_mem_append

theorem whole_of_runs (h : (p.attempt req n).Runs events out)
    (hempty : req.body ≠ .stream → original = []) (hn : 0 < n) (hreplay : 1 < n → req.replayable)
    (hlikely : Plausible.all original events) : Whole req original n events :=
  fun _ hown => (attempt_runs h).sent hlikely hempty hown hreplay hn

theorem round_sends {failed : OutboundError → Call (Except OutboundError Response)}
    (h : (p.round req n failed).Runs events out) (hlikely : Plausible.all original events)
    (hempty : req.body ≠ .stream → original = []) (hn : 0 < n) (hreplay : 1 < n → req.replayable)
    (hfailed : ∀ attempt err rest, (p.attempt req n).Runs attempt (.error err) →
      Whole req original n attempt → Plausible.all original rest → (failed err).Runs rest out →
      ∃ s : Sending, ⟨.callerErr, none⟩ :: attempt ++ rest = s.events p n ∧
        out = s.last.result p ∧ s.Lawful p req original n (left + 1)) :
    ∃ s : Sending, events = s.events p n ∧ out = s.last.result p ∧
      s.Lawful p req original n (left + 1) := by
  rcases round_runs h with ⟨e, rfl, rfl⟩ | ⟨attempt, resp, rfl, hattempt, rfl⟩ |
    ⟨attempt, err, rest, rfl, hattempt, hrest⟩
  · exact ⟨⟨[], .ended e⟩, rfl, rfl, .single trivial⟩
  · have hsaid := (forall_mem_cons.mp hlikely).2
    exact ⟨⟨[], .answered attempt resp⟩, rfl, rfl,
      .single ⟨hattempt, whole_of_runs hattempt hempty hn hreplay hsaid⟩⟩
  · obtain ⟨hbefore, hafter⟩ := plausible_append.mp hlikely
    have hsent := whole_of_runs hattempt hempty hn hreplay (forall_mem_cons.mp hbefore).2
    exact hfailed attempt err rest hattempt hsent hafter hrest

/-- The run lemma of the loop, at attempt `n` with `left` more to make. -/
theorem tries_runs (h : (p.tries req left n).Runs events out)
    (hlikely : Plausible.all original events) (hempty : req.body ≠ .stream → original = [])
    (hn : 0 < n) (hreplay : 1 < n + left → req.replayable)
    (hcap : ∀ k, n ≤ k → k < n + left → ∀ draw d,
      fullJitter draw k p.retryBaseDelay p.retryMaxDelay = some d → d ≤ p.retryMaxDelay) :
    ∃ s : Sending, events = s.events p n ∧ out = s.last.result p ∧
      s.Lawful p req original n (left + 1) := by
  induction left generalizing n events with
  | zero =>
    refine round_sends h hlikely hempty hn hreplay fun attempt err rest hattempt hsent _ hrest => ?_
    obtain ⟨rfl, rfl⟩ := runs_ret.mp hrest
    exact ⟨⟨[], .failed attempt err []⟩, rfl, rfl, .single ⟨hattempt, hsent, by simp⟩⟩
  | succ left ih =>
    rw [tries_succ] at h
    refine round_sends h hlikely hempty hn (fun hlater => hreplay (by omega))
      fun attempt err rest hattempt hsent hafter hrest => ?_
    rcases onFailure_runs hrest with ⟨hdeclines, rfl⟩ | ⟨e, hcuts, hended, herr, rfl⟩ |
      ⟨jitter, time, rest, hretryable, hretry, hdeadline, rfl, htries⟩
    · exact ⟨⟨[], .failed attempt err rest⟩, rfl, rfl, .single ⟨hattempt, hsent, hdeclines⟩⟩
    · exact ⟨⟨[], .interrupted attempt err rest e⟩, rfl, rfl,
        .single ⟨hattempt, hsent, hcuts, hended, herr⟩⟩
    · obtain ⟨hpause, hlater⟩ := plausible_append.mp hafter
      obtain ⟨draw, hdraw⟩ := (forall_mem_cons.mp hpause).1
      have hjitter := hcap n (le_refl _) (by omega) draw jitter hdraw
      obtain ⟨s, rfl, rfl, hs⟩ := ih htries hlater (Nat.succ_pos n) (fun _ => hreplay (by omega))
        (fun k hk hlt => hcap k (by omega) (by omega))
      refine ⟨⟨⟨attempt, err, jitter, time⟩ :: s.retried, s.last⟩, ?_, rfl, hs.cons ?_⟩
      · rw [Sending.events_cons]
        simp [Retried.round, Retried.wait]
      · exact ⟨hattempt, hsent, hretryable, le_max_right _ _, max_le hjitter hretry, hdeadline⟩

theorem granted_runs (p : Policy) : p.tryRetry.Runs p.granted true := by
  unfold Policy.tryRetry Policy.granted
  split
  · exact runs_request.mpr rfl
  · exact .ret true

theorem slept_runs (d : Int) : (sleep d).Runs [slept d] true := by
  unfold sleep slept
  split
  · exact runs_request_bind.mpr ⟨none, [], rfl, .ret true⟩
  · exact runs_request.mpr rfl

theorem plausible_granted (p : Policy) : Plausible.all original p.granted := by
  unfold Policy.granted
  split <;> simp [Plausible.all, Plausible]

theorem plausible_slept (d : Int) : Plausible.all original [slept d] := by
  by_cases hnow : d ≤ 0 <;> simp [Plausible.all, slept, hnow, Plausible]

theorem onFailure_waits (jitter : Int) {err : OutboundError} (hretryable : retryable err = true)
    (hafter : err.retryAfter = 0) (hmax : 0 ≤ p.retryMaxDelay)
    (hrest : (p.tries req left (n + 1)).Runs events out) : (p.onFailure req left n err).Runs
      (⟨.fullJitter n p.retryBaseDelay p.retryMaxDelay, jitter⟩ :: ⟨.untilDeadline, none⟩ ::
        (p.granted ++ ([slept (max jitter 0)] ++ events))) out := by
  have hno : ¬p.retryMaxDelay < 0 := by omega
  unfold Policy.onFailure
  rw [hretryable, hafter]
  refine runs_request_bind.mpr ⟨jitter, _, rfl, ?_⟩
  rw [if_neg hno]
  refine runs_request_bind.mpr ⟨none, _, rfl, ?_⟩
  refine (granted_runs p).bind ?_
  exact (slept_runs (max jitter 0)).bind hrest

theorem exists_round {jitter : Int} {draw : Int → Int}
    (hjitter : fullJitter draw n p.retryBaseDelay p.retryMaxDelay = some jitter)
    (hmax : 0 ≤ p.retryMaxDelay) (hrest : (p.tries req left (n + 1)).Runs events out)
    (hlikely : Plausible.all original events) :
    ∃ before, (p.tries req (left + 1) n).Runs (before ++ ([slept (max jitter 0)] ++ events)) out ∧
      Plausible.all original (before ++ ([slept (max jitter 0)] ++ events)) := by
  obtain ⟨attempt, hattempt, hsaid⟩ := can_attempt original p req n
  have hretryable : retryable p.unreached = true := rfl
  have hfailed := onFailure_waits jitter hretryable rfl hmax hrest
  let drawn : Said := ⟨.fullJitter n p.retryBaseDelay p.retryMaxDelay, jitter⟩
  refine ⟨⟨.callerErr, none⟩ :: (attempt ++ (drawn :: ⟨.untilDeadline, none⟩ :: p.granted)), ?_, ?_⟩
  · rw [tries_succ, cons_append, append_assoc]
    exact runs_request_bind.mpr ⟨none, _, rfl, hattempt.bind hfailed⟩
  · have hpause : Plausible.all original (drawn :: ⟨.untilDeadline, none⟩ :: p.granted) := by
      refine forall_mem_cons.mpr ⟨⟨draw, hjitter⟩, ?_⟩
      exact forall_mem_cons.mpr ⟨trivial, plausible_granted p⟩
    refine plausible_append.mpr ⟨forall_mem_cons.mpr ⟨trivial, ?_⟩, ?_⟩
    · exact plausible_append.mpr ⟨hsaid, hpause⟩
    · exact plausible_append.mpr ⟨plausible_slept _, hlikely⟩

/-- Every attempt fails and the last wait is `jitter`. -/
theorem exists_sleep (req : Request) (original : List UInt8) {jitter : Int}
    (hmax : 0 ≤ p.retryMaxDelay) (hsome : ∀ draw k, n ≤ k → k < n + left →
      (fullJitter draw k p.retryBaseDelay p.retryMaxDelay).isSome) {draw : Int → Int}
    (hjitter : fullJitter draw (n + left) p.retryBaseDelay p.retryMaxDelay = some jitter) :
    ∃ events out, (p.tries req (left + 1) n).Runs events out ∧ Plausible.all original events ∧
      slept (max jitter 0) ∈ events := by
  induction left generalizing n with
  | zero =>
    have hend : (p.tries req 0 (n + 1)).Runs [⟨.callerErr, some .canceled⟩]
        ((Last.ended .canceled).result p) :=
      runs_request_bind.mpr ⟨some .canceled, [], rfl, .ret _⟩
    have hnone : Plausible.all original [⟨.callerErr, some .canceled⟩] := by
      simp [Plausible.all, Plausible]
    obtain ⟨before, hruns, hlikely⟩ := exists_round hjitter hmax hend hnone
    exact ⟨_, _, hruns, hlikely, by simp⟩
  | succ left ih =>
    rw [← Nat.add_assoc, Nat.add_right_comm] at hjitter
    obtain ⟨events, out, hruns, hlikely, hslept⟩ :=
      ih (fun draw k hk hlt => hsome draw k (by omega) (by omega)) hjitter
    obtain ⟨first, hfirst⟩ := Option.isSome_iff_exists.mp (hsome draw n (le_refl _) (by omega))
    obtain ⟨before, hmore, hall⟩ := exists_round hfirst hmax hruns hlikely
    exact ⟨_, out, hmore, hall, by simp [hslept]⟩

theorem sleep_mem_rest {d : Int} {rest : List Said} (h : (p.attempt req n).Runs events out)
    (hd : (⟨.sleep d, true⟩ : Said) ∈ ⟨.callerErr, none⟩ :: events ++ rest) :
    ⟨.sleep d, true⟩ ∈ rest := by
  simpa [(attempt_runs h).noSleep d true] using hd

/-- A wait to its end comes before another attempt. -/
theorem Sending.Lawful.sleeps {s : Sending} {d : Int} (h : s.Lawful p req original n limit)
    (hd : (⟨.sleep d, true⟩ : Said) ∈ s.events p n) :
    ∃ r k, (r, k) ∈ s.retried.zipIdx n ∧ r.wait = d := by
  rcases mem_append.mp hd with hd | hd
  · obtain ⟨⟨r, k⟩, hr, hround⟩ := mem_flatMap.mp hd
    refine ⟨r, k, hr, ?_⟩
    have hgranted : (⟨.sleep d, true⟩ : Said) ∉ p.granted := by
      unfold Policy.granted
      split <;> simp
    have hpause := sleep_mem_rest (h.retried r k hr).ran hround
    simp only [mem_cons, mem_append, hgranted, false_or, slept, not_mem_nil,
      or_false] at hpause
    split at hpause <;> simp_all
  · have hlast := h.last
    exfalso
    cases hs : s.last <;> rw [hs] at hlast hd
    case ended e => simp [Last.round] at hd
    case answered events resp =>
      rw [Last.round, ← append_nil (_ :: events)] at hd
      simpa using sleep_mem_rest hlast.1 hd
    case failed events err rest => exact hlast.2.2 _ (sleep_mem_rest hlast.1 hd)
    case interrupted events err rest e => exact hlast.2.2.1 _ (sleep_mem_rest hlast.1 hd)

def Policy.counted (p : Policy) : List Said :=
  if p.budget then [⟨.budgetRequest p.name, ()⟩] else []

/-- What an admitted call is to do: every attempt is followed by another for a reason only, the
attempts are within their number, and the result is that of the last of them. -/
structure Sending.Kept (p : Policy) (req : Request) (retry : Bool) (original : List UInt8)
    (s : Sending) : Prop where
  count : (s.attempts : Int) ≤ max 1 p.retryMaxAttempts
  once : ¬(retry ∧ idempotent req ∧ req.replayable) → s.attempts ≤ 1
  retried : ∀ r n, (r, n) ∈ s.retried.zipIdx 1 → r.Lawful p req original n
  last : s.last.Lawful p req original (s.retried.length + 1)

def Client.Keeps (cl : Client) (target : String) (p : Policy) (req : Request) (retry : Bool)
    (original : List UInt8) : Prop :=
  (∀ draw n, 0 < n → n < p.attempts req retry →
    (fullJitter draw n p.retryBaseDelay p.retryMaxDelay).isSome) ∧
  ∀ count trace result,
    (cl.send target req retry).Runs (⟨.increment, count⟩ :: ⟨.closing, false⟩ :: trace) result →
    Plausible.all original trace →
    ∃ (s : Sending) (after : List Said), trace = p.counted ++ s.events p 1 ++ after ∧
      (∀ e ∈ after, e.1.quiet) ∧ result.map Prod.fst = s.last.result p ∧
      s.Kept p req retry original

variable {cl : Client} {target : String} {retry : Bool}

theorem attempts_spec (p : Policy) (req : Request) (retry : Bool) :
    1 ≤ p.attempts req retry ∧ (p.attempts req retry : Int) ≤ max 1 p.retryMaxAttempts ∧
      (1 < p.attempts req retry → retry ∧ idempotent req ∧ req.replayable) := by
  unfold Policy.attempts
  split
  · rename_i hretry
    obtain ⟨hcall, hmore, hidem, hbody⟩ := hretry
    refine ⟨by omega, by omega, fun _ => ⟨hcall, hidem, hbody⟩⟩
  · exact ⟨le_refl _, by omega, fun h => absurd h (by decide)⟩

theorem only_leave : leave.Only Op.quiet := by
  refine only_request trivial fun count => ?_
  split
  · refine only_request trivial fun closing => ?_
    split <;> simp [request, Op.quiet]
  · simp

def Client.admitted (p : Policy) (req : Request) (retry : Bool) :
    Call (Except OutboundError (Response × Nat)) := do
  if p.budget then
    ask (.budgetRequest p.name)
  match ← p.tries req (p.attempts req retry - 1) 1 with
  | .ok resp =>
    let body ← ask (.newBody p)
    return .ok (resp, body)
  | .error oe =>
    leave
    return .error oe

theorem send_runs (hp : cl.targets target = some p) (habs : req.absolute = true) {count : Int}
    {trace : List Said} {result : Except OutboundError (Response × Nat)} :
    (cl.send target req retry).Runs (⟨.increment, count⟩ :: ⟨.closing, false⟩ :: trace) result ↔
      (Client.admitted p req retry).Runs trace result := by
  unfold Client.send
  simp only [hp, habs, Bool.not_true, Bool.false_eq_true, if_false]
  constructor
  · intro h
    obtain ⟨_, _, hincrement, hclosing⟩ := runs_ask.mp h
    cases hincrement
    obtain ⟨_, _, hopen, hadmitted⟩ := runs_ask.mp hclosing
    cases hopen
    exact hadmitted
  · intro h
    exact runs_ask.mpr ⟨count, _, rfl, runs_ask.mpr ⟨false, _, rfl, h⟩⟩

def Client.settle (p : Policy) : Except OutboundError Response →
    Call (Except OutboundError (Response × Nat))
  | .ok resp => do
    let body ← ask (.newBody p)
    return .ok (resp, body)
  | .error oe => do
    leave
    return .error oe

theorem admitted_runs {trace : List Said} {result : Except OutboundError (Response × Nat)}
    (h : (Client.admitted p req retry).Runs trace result) :
    ∃ loop out after, trace = p.counted ++ loop ++ after ∧
      (p.tries req (p.attempts req retry - 1) 1).Runs loop out ∧ (∀ e ∈ after, e.1.quiet) ∧
      result.map Prod.fst = out := by
  have hcounted : ∃ rest, trace = p.counted ++ rest ∧
      (p.tries req (p.attempts req retry - 1) 1 >>= Client.settle p).Runs rest result := by
    unfold Client.admitted at h
    unfold Policy.counted
    split at h
    · rename_i hbudget
      obtain ⟨_, rest, rfl, hrest⟩ := runs_request_bind.mp h
      exact ⟨rest, by simp [hbudget], hrest⟩
    · rename_i hbudget
      exact ⟨trace, by simp [hbudget], h⟩
  obtain ⟨rest, rfl, hrest⟩ := hcounted
  obtain ⟨loop, out, after, rfl, hloop, hafter⟩ := runs_bind.mp hrest
  refine ⟨loop, out, after, (append_assoc _ _ _).symm, hloop, ?_⟩
  cases out with
  | ok resp =>
    obtain ⟨body, _, rfl, hend⟩ := runs_request_bind.mp hafter
    obtain ⟨rfl, rfl⟩ := runs_ret.mp hend
    exact ⟨by simp [Op.quiet], rfl⟩
  | error oe =>
    obtain ⟨left, _, _, rfl, hleave, hend⟩ := runs_bind.mp hafter
    obtain ⟨rfl, rfl⟩ := runs_ret.mp hend
    rw [append_nil]
    exact ⟨only_leave.runs hleave, rfl⟩

theorem can_settle (original : List UInt8) (p : Policy) (out : Except OutboundError Response) :
    ∃ result, (Client.settle p out).Can (Plausible original) result := by
  cases out with
  | ok resp => exact ⟨_, (can_request (x := 0) trivial).bind (can_ret _)⟩
  | error oe =>
    have hleave : leave.Can (Plausible original) () :=
      (can_request (x := 1) trivial).bind (can_ret ())
    exact ⟨_, hleave.bind (can_ret _)⟩

/-- Every run of the loop is the middle of a run of the call. -/
theorem exists_admitted {loop : List Said} {out : Except OutboundError Response}
    (h : (p.tries req (p.attempts req retry - 1) 1).Runs loop out)
    (hlikely : Plausible.all original loop) :
    ∃ before after result, (Client.admitted p req retry).Runs (before ++ (loop ++ after)) result ∧
      Plausible.all original (before ++ (loop ++ after)) := by
  obtain ⟨result, after, hruns, hsaid⟩ := can_settle original p out
  have hall := plausible_append.mpr ⟨hlikely, hsaid⟩
  unfold Client.admitted
  by_cases hbudget : p.budget
  · refine ⟨[⟨.budgetRequest p.name, ()⟩], after, result, ?_, ?_⟩
    · rw [if_pos hbudget]
      exact runs_request_bind.mpr ⟨(), _, rfl, h.bind hruns⟩
    · exact plausible_append.mpr ⟨by simp [Plausible.all, Plausible], hall⟩
  · refine ⟨[], after, result, ?_, hall⟩
    rw [if_neg hbudget]
    exact h.bind hruns

/-- With a ceiling within the cap at the last retry, every retry's jitter is within it. -/
theorem exists_jitter_le {base capDelay : Int} (hbase : 0 ≤ base) (hle : base ≤ capDelay)
    (hrange : capDelay < 2 ^ 63) {k n : Nat} (hceiling : jitterCeiling k base capDelay ≤ capDelay)
    (hn : n ≤ k) (draw : Int → Int) :
    ∃ d, fullJitter draw n base capDelay = some d ∧ d ≤ capDelay := by
  have hmono : jitterCeiling n base capDelay ≤ capDelay :=
    le_trans (jitterCeiling_mono hbase hn) hceiling
  obtain ⟨d, hd, -, hcap | rfl⟩ :=
    fullJitter_spec draw (lt_of_le_of_lt hmono hrange)
  · exact ⟨d, hd, hcap.trans hmono⟩
  · exact ⟨0, hd, hbase.trans hle⟩

/-- A call is kept to if the jitter of every retry is within the cap. -/
theorem keeps_of_jitter_le (hp : cl.targets target = some p) (habs : req.absolute = true)
    (hempty : req.body ≠ .stream → original = [])
    (hcap : ∀ k, k < p.attempts req retry → ∀ draw,
      ∃ d, fullJitter draw k p.retryBaseDelay p.retryMaxDelay = some d ∧ d ≤ p.retryMaxDelay) :
    cl.Keeps target p req retry original := by
  obtain ⟨hone, hmax, hreplay⟩ := attempts_spec p req retry
  refine ⟨fun draw n _ hlt => ?_, fun count trace result hruns hlikely => ?_⟩
  · obtain ⟨d, hd, -⟩ := hcap n hlt draw
    rw [hd]
    rfl
  · obtain ⟨loop, out, after, rfl, hloop, hafter, rfl⟩ :=
      admitted_runs ((send_runs hp habs).mp hruns)
    have hsaid := (plausible_append.mp (plausible_append.mp hlikely).1).2
    obtain ⟨s, rfl, hout, hs⟩ := tries_runs hloop hsaid hempty Nat.one_pos
      (fun hmore => (hreplay (by omega)).2.2) (by
        intro k _ hlt draw d hd
        obtain ⟨d', hd', hle⟩ := hcap k (by omega) draw
        rw [hd] at hd'
        cases hd'
        exact hle)
    refine ⟨s, after, rfl, hafter, hout, ?_, ?_, hs.retried, ?_⟩
    · have hcount := hs.count
      omega
    · intro honce
      have hcount := hs.count
      have hsingle : ¬1 < p.attempts req retry := fun hmore => honce (hreplay hmore)
      omega
    · have hlast := hs.last
      rw [Nat.add_comm] at hlast
      exact hlast

/-- A call is not kept to if the ceiling of its last retry is over the cap. -/
theorem not_keeps_of_lt_ceiling (hp : cl.targets target = some p) (habs : req.absolute = true)
    (hmax : 0 ≤ p.retryMaxDelay) (hmore : 1 < p.attempts req retry)
    (hover : p.retryMaxDelay <
      jitterCeiling (p.attempts req retry - 1) p.retryBaseDelay p.retryMaxDelay) :
    ¬cl.Keeps target p req retry original := by
  rintro ⟨hsome, hkeeps⟩
  obtain ⟨left, hleft⟩ : ∃ left, p.attempts req retry - 1 = 1 + left :=
    ⟨p.attempts req retry - 2, by omega⟩
  rw [hleft] at hover
  have hretry : 1 + left ≠ 0 := by omega
  by_cases hrange : jitterCeiling (1 + left) p.retryBaseDelay p.retryMaxDelay < 2 ^ 63
  · have hpos : 0 < jitterCeiling (1 + left) p.retryBaseDelay p.retryMaxDelay :=
      lt_of_le_of_lt hmax hover
    obtain ⟨draw, hdraw⟩ := exists_fullJitter hretry hpos hrange
    obtain ⟨loop, out, hloop, hsaid, hslept⟩ := exists_sleep req original
      hmax (fun draw k hk hlt => hsome draw k hk (by omega)) hdraw
    rw [max_eq_left hpos.le, slept, if_neg (not_le.mpr hpos)] at hslept
    rw [Nat.add_comm, ← hleft] at hloop
    obtain ⟨before, after, result, hruns, hall⟩ := exists_admitted hloop hsaid
    obtain ⟨s, after', htrace, hquiet, -, hs⟩ := hkeeps 0 _ _ ((send_runs hp habs).mpr hruns) hall
    let ceiling := jitterCeiling (1 + left) p.retryBaseDelay p.retryMaxDelay
    have hwait : (⟨.sleep ceiling, true⟩ : Said) ∈ p.counted ++ s.events p 1 ++ after' :=
      htrace ▸ mem_append_right _ (mem_append_left _ hslept)
    have hlawful : s.Lawful p req original 1 s.attempts :=
      ⟨le_refl _, hs.retried, Nat.add_comm _ 1 ▸ hs.last⟩
    have hcounted : ∀ d, (⟨.sleep d, true⟩ : Said) ∉ p.counted := by
      intro d
      unfold Policy.counted
      split <;> simp
    rcases mem_append.mp hwait with hwait | hwait
    · rcases mem_append.mp hwait with hwait | hwait
      · exact hcounted _ hwait
      · obtain ⟨r, k, hr, hd⟩ := hlawful.sleeps hwait
        have hcapped := (hs.retried r k hr).capped
        omega
    · exact hquiet _ hwait
  · have hpanics := fullJitter_panics id hretry (not_lt.mp hrange)
    have hdrawn := hsome id (1 + left) (by omega) (by omega)
    rw [hpanics] at hdrawn
    cases hdrawn

/-- Every admitted call with a valid policy keeps to it exactly when it makes one attempt or
the delays as floats do not go over `RetryMaxDelay` at its last retry. -/
theorem send_keeps_iff (cl : Client) (target : String) (tc : TargetConfig)
    (hp : cl.targets target = some tc.newPolicy) (hvalid : tc.validate = [])
    (hrange : tc.retryMaxDelay < 2 ^ 63) (req : Request) (habs : req.absolute = true)
    (retry : Bool) (original : List UInt8) (hempty : req.body ≠ .stream → original = []) :
    cl.Keeps target tc.newPolicy req retry original ↔
      tc.newPolicy.attempts req retry ≤ 1 ∨
        jitterCeiling (tc.newPolicy.attempts req retry - 1) tc.retryBaseDelay tc.retryMaxDelay ≤
          tc.retryMaxDelay := by
  obtain ⟨hbase, hle⟩ := TargetConfig.delays_of_validate hvalid
  have hmax : 0 ≤ tc.newPolicy.retryMaxDelay := hbase.trans hle
  constructor
  · intro hkeeps
    by_contra hover
    push Not at hover
    exact not_keeps_of_lt_ceiling hp habs hmax hover.1 hover.2 hkeeps
  · intro hwithin
    refine keeps_of_jitter_le hp habs hempty fun k hlt draw => ?_
    rcases hwithin with hone | hceiling
    · -- the loop draws no jitter at all, and at zero there is none
      obtain rfl : k = 0 := by omega
      exact ⟨0, rfl, hmax⟩
    · exact exists_jitter_le hbase hle hrange hceiling (by omega) draw

def Client.single (tc : TargetConfig) : Client where
  targets target := if target = tc.name then some tc.newPolicy else none
  named := by
    intro target p h
    split at h
    · rename_i htarget
      cases h
      exact htarget.symm
    · cases h

def getRequest : Request where
  method := "GET"
  url := some ⟨"https", "api.example"⟩
  idempotencyKey := ""
  body := .nil
  getBody := false

/-- The default delays are within the cap. -/
theorem send_keeps_iff_default :
    let tc : TargetConfig :=
      { name := "api", retryMaxAttempts := 3, retryBaseDelay := 10 ^ 8, retryMaxDelay := 5 * 10 ^ 9 }
    tc.validate = [] ∧ (Client.single tc).Keeps "api" tc.newPolicy getRequest true [] := by
  intro tc
  have hvalid : tc.validate = [] := by decide +kernel
  have hceiling : jitterCeiling (tc.newPolicy.attempts getRequest true - 1) tc.retryBaseDelay
      tc.retryMaxDelay ≤ tc.retryMaxDelay := jitterCeiling_le (by decide) (by decide)
  exact ⟨hvalid, (send_keeps_iff (Client.single tc) "api" tc rfl hvalid (by decide) getRequest
    (by decide) true [] (fun _ => rfl)).mpr (.inr hceiling)⟩

/-- One retry, after 2^53 + 3 nanoseconds at most. -/
def longDelay : TargetConfig where
  name := "api"
  retryMaxAttempts := 2
  retryBaseDelay := 2 ^ 53 + 3
  retryMaxDelay := 2 ^ 53 + 3

/-- The first attempt fails, and the call waits for 2^53 + 4 nanoseconds before the second:
`float64` rounds the cap up. -/
def oversleeps : List Said :=
  [⟨.increment, 1⟩, ⟨.closing, false⟩, ⟨.callerErr, none⟩,
    ⟨.roundTrip "api" 1 none, .error refusedConnection⟩, ⟨.callerErr, none⟩, ⟨.attemptErr, none⟩,
    ⟨.fullJitter 1 (2 ^ 53 + 3) (2 ^ 53 + 3), 2 ^ 53 + 4⟩, ⟨.untilDeadline, none⟩,
    ⟨.sleep (2 ^ 53 + 4), true⟩, ⟨.callerErr, none⟩,
    ⟨.roundTrip "api" 2 none, .ok ⟨200, ""⟩⟩, ⟨.newBody longDelay.newPolicy, 0⟩]

theorem longDelay_oversleeps :
    longDelay.validate = [] ∧ longDelay.retryMaxDelay < 2 ^ 53 + 4 ∧
      Plausible.all [] oversleeps ∧
      ((Client.single longDelay).send "api" getRequest true).Runs oversleeps (.ok (⟨200, ""⟩, 0)) ∧
      ¬(Client.single longDelay).Keeps "api" longDelay.newPolicy getRequest true [] := by
  have hdraw : fullJitter (fun n => n - 1) 1 (2 ^ 53 + 3) (2 ^ 53 + 3) = some (2 ^ 53 + 4) := by
    decide +kernel
  refine ⟨by decide +kernel, by decide, ?_, ?_, ?_⟩
  · simp only [Plausible.all, oversleeps, forall_mem_cons, Plausible]
    exact ⟨trivial, trivial, trivial, trivial, trivial, trivial, ⟨_, hdraw⟩, trivial, trivial,
      trivial, trivial, trivial, by simp⟩
  · repeat refine Runs.ask _ ?_
    exact .ret _
  · exact not_keeps_of_lt_ceiling rfl (by decide) (by decide) (by decide) (by decide +kernel)

end GolangBasics.Resilient
