import GolangBasics.Kafka.Consumer.Run

/-! What becomes of a record: which handler attempts and dead-letter publishes `process` makes,
when it returns nil, and what the batch and the loop do when it does not. -/
namespace GolangBasics.Kafka.Consumer
open List Option

def Attempt.goesOn (a : Attempt) : Prop :=
  ∃ err, invoke a.result = some err ∧ err.isPermanent = false ∧ a.ended = false ∧
    a.interrupted = false

def Publish.goesOn (p : Publish) : Prop :=
  p.result ≠ none ∧ p.ended = false ∧ p.interrupted = false

/-- A loop over the calls numbered from `first`, with `left` more after the first: it makes
them in order up to `last`, the first that does not go on or is the last there is. -/
structure Calls (event : Nat → Event) (goesOn : Nat → Prop) (first left last : Nat)
    (log log' : List Event) : Prop where
  first_le : first ≤ last
  le : last ≤ first + left
  before : ∀ i, first ≤ i → i < last → goesOn i
  stops : last = first + left ∨ ¬goesOn last
  log_eq : log' = ((List.range' first (last + 1 - first)).map event).reverse ++ log

namespace Calls
variable {event : Nat → Event} {goesOn : Nat → Prop} {first left last : Nat}
  {log log' : List Event}

theorem single (h : left = 0 ∨ ¬goesOn first) :
    Calls event goesOn first left first log (event first :: log) where
  first_le := le_refl _
  le := Nat.le_add_right _ _
  before := by omega
  stops := h.imp_left fun h => by omega
  log_eq := by simp [List.range'_one]

theorem cons (hgoes : goesOn first)
    (h : Calls event goesOn (first + 1) left last (event first :: log) log') :
    Calls event goesOn first (left + 1) last log log' where
  first_le := by
    have := h.first_le
    omega
  le := by
    have := h.le
    omega
  before := by
    intro i hi hlast
    rcases Nat.eq_or_lt_of_le hi with rfl | hi
    · exact hgoes
    · exact h.before i hi hlast
  stops := h.stops.imp_left fun h => by omega
  log_eq := by
    have hle := h.first_le
    have hcount : last + 1 - first = (last + 1 - (first + 1)) + 1 := by omega
    rw [h.log_eq, hcount, List.range'_succ]
    simp

/-- What no call that goes on does is done by the last call or by none. -/
theorem exists_iff (h : Calls event goesOn first left last log log') {P : Event → Prop}
    (hgoes : ∀ i, goesOn i → ¬P (event i)) :
    ∃ calls, log' = calls ++ log ∧ ((∃ e ∈ calls, P e) ↔ P (event last)) := by
  have hle := h.first_le
  refine ⟨_, h.log_eq, ?_⟩
  simp only [mem_reverse, List.mem_map, List.mem_range'_1]
  constructor
  · rintro ⟨_, ⟨i, hi, rfl⟩, hP⟩
    have hlast : ¬i < last := fun hlt => hgoes i (h.before i hi.1 hlt) hP
    obtain rfl : i = last := by omega
    exact hP
  · intro hP
    exact ⟨event last, ⟨last, ⟨hle, by omega⟩, rfl⟩, hP⟩

end Calls

def Tried.Verdict (a : Attempt) (final : Bool) (attempt : Nat) : Tried → Prop
  | .done => invoke a.result = none
  | .draining => ∃ err, invoke a.result = some err ∧
      (a.ended ∨ err.isPermanent = false ∧ final = false ∧ a.interrupted)
  | .failed err n => n = attempt ∧ invoke a.result = some err ∧ a.ended = false ∧
      (err.isPermanent ∨ final)

theorem goesOn_iff {a : Attempt} {err : Err} (h : invoke a.result = some err) :
    a.goesOn ↔ err.isPermanent = false ∧ a.ended = false ∧ a.interrupted = false := by
  constructor
  · rintro ⟨err', herr, hgoes⟩
    obtain rfl := some.inj (h.symm.trans herr)
    exact hgoes
  · exact fun hgoes => ⟨err, h, hgoes⟩

theorem tryHandler_calls (handler : Nat → Attempt) (r : Message) (left attempt : Nat)
    (log : List Event) :
    ∃ last, Calls (fun i => .invoked r i (invoke (handler i).result)) (fun i => (handler i).goesOn)
        attempt left last log (tryHandler handler r left attempt log).2 ∧
      (tryHandler handler r left attempt log).1.Verdict (handler last)
        (decide (last = attempt + left)) last := by
  fun_induction tryHandler handler r left attempt log with
  | case1 left attempt log a log' h =>
    refine ⟨attempt, .single (.inr ?_), h⟩
    rintro ⟨err, herr, -⟩
    cases h.symm.trans herr
  | case2 left attempt log a log' err h hended =>
    refine ⟨attempt, .single (.inr ?_), ⟨err, h, .inl hended⟩⟩
    rintro ⟨-, -, -, hlive, -⟩
    cases hended.symm.trans hlive
  | case3 left attempt log a log' err h hended hperm =>
    refine ⟨attempt, .single (.inr ?_), rfl, h, by simpa using hended, .inl hperm⟩
    intro hgoes
    cases hperm.symm.trans ((goesOn_iff h).mp hgoes).1
  | case4 attempt log a log' err h hended hperm =>
    exact ⟨attempt, .single (.inl rfl), rfl, h, by simpa using hended, .inr (by simp)⟩
  | case5 attempt log a log' err h hended hperm left hint =>
    refine ⟨attempt, .single (.inr ?_), err, h, .inr ⟨by simpa using hperm, by simp, hint⟩⟩
    rintro ⟨-, -, -, -, hwaited⟩
    cases hint.symm.trans hwaited
  | case6 attempt log a log' err h hended hperm left hint ih =>
    obtain ⟨last, hcalls, hverdict⟩ := ih
    have hgoes : (handler attempt).goesOn :=
      (goesOn_iff h).mpr ⟨by simpa using hperm, by simpa using hended, by simpa using hint⟩
    refine ⟨last, hcalls.cons hgoes, ?_⟩
    rwa [Nat.add_assoc, Nat.add_comm 1 left] at hverdict

theorem deadLetter_calls (publish : Nat → Publish) (r msg : Message) (left n : Nat)
    (log : List Event) :
    ∃ last, Calls (fun i => .published r msg (publish i).result) (fun i => (publish i).goesOn)
        n left last log (deadLetter publish r msg left n log).2 ∧
      ((deadLetter publish r msg left n log).1 = none ↔ (publish last).result = none) := by
  fun_induction deadLetter publish r msg left n log with
  | case1 left n log p log' h =>
    refine ⟨n, .single (.inr ?_), by simpa using h⟩
    rintro ⟨hfailed, -⟩
    exact hfailed h
  | case2 left n log p log' err h hended =>
    refine ⟨n, .single (.inr ?_), by simp [show (publish n).result = some err from h]⟩
    rintro ⟨-, hlive, -⟩
    cases hended.symm.trans hlive
  | case3 n log p log' err h hended =>
    exact ⟨n, .single (.inl rfl), by simp [show (publish n).result = some err from h]⟩
  | case4 n log p log' err h hended left hint =>
    refine ⟨n, .single (.inr ?_), by simp [show (publish n).result = some err from h]⟩
    rintro ⟨-, -, hwaited⟩
    cases hint.symm.trans hwaited
  | case5 n log p log' err h hended left hint ih =>
    obtain ⟨last, hcalls, hverdict⟩ := ih
    refine ⟨last, hcalls.cons ⟨?_, by simpa using hended, by simpa using hint⟩, hverdict⟩
    simp [show (publish n).result = some err from h]

def Script.Failed (s : Script) (cfg : Config) (n : Nat) (err : Err) : Prop :=
  invoke (s.handler n).result = some err ∧ (s.handler n).ended = false ∧
    (err.isPermanent ∨ n = cfg.maxRetries + 1)

/-- The calls of `process`, oldest loop first: the handler up to attempt `n`, and then, only
for a failure and only with a dead-letter topic, publishes. -/
inductive Disposed (cfg : Config) (r : Message) (s : Script) (log : List Event) :
    Option Err → List Event → Prop where
  | handled {n : Nat} {log' : List Event} {result : Option Err}
      (handler : Calls (fun i => .invoked r i (invoke (s.handler i).result))
        (fun i => (s.handler i).goesOn) 1 cfg.maxRetries n log log')
      (hresult : result = none ↔ invoke (s.handler n).result = none)
      (hno : ∀ err, s.Failed cfg n err → cfg.deadLetterTopic r.topic = "") :
      Disposed cfg r s log result log'
  | published {n last : Nat} {mid log' : List Event} {result : Option Err} {err : Err}
      (handler : Calls (fun i => .invoked r i (invoke (s.handler i).result))
        (fun i => (s.handler i).goesOn) 1 cfg.maxRetries n log mid)
      (hfailed : s.Failed cfg n err) (htopic : cfg.deadLetterTopic r.topic ≠ "")
      (publishes : Calls (fun i => .published r (deadLetterMessage r (cfg.deadLetterTopic r.topic)
          (if err.isPermanent then "permanent" else "retries_exhausted") err n)
          (s.publish i).result)
        (fun i => (s.publish i).goesOn) 0 cfg.maxRetries last mid log')
      (hresult : result = none ↔ (s.publish last).result = none) :
      Disposed cfg r s log result log'

theorem process_disposed (cfg : Config) (r : Message) (s : Script) (log : List Event) :
    Disposed cfg r s log (process cfg r s log).1 (process cfg r s log).2 := by
  obtain ⟨n, hcalls, hverdict⟩ := tryHandler_calls s.handler r cfg.maxRetries 1 log
  unfold process
  rcases htry : tryHandler s.handler r cfg.maxRetries 1 log with ⟨tried, mid⟩
  rw [htry] at hcalls hverdict
  cases tried with
  | done =>
    have hok : invoke (s.handler n).result = none := hverdict
    refine .handled hcalls (by simp [hok]) fun err hfailed => ?_
    cases hok.symm.trans hfailed.1
  | draining =>
    obtain ⟨err, herr, hdrain⟩ := hverdict
    refine .handled hcalls (by simp [herr]) fun err' hfailed => ?_
    obtain rfl := some.inj (herr.symm.trans hfailed.1)
    rcases hdrain with hended | ⟨hperm, hfinal, -⟩
    · cases hended.symm.trans hfailed.2.1
    · rcases hfailed.2.2 with hperm' | hlast
      · cases hperm.symm.trans hperm'
      · simp [hlast, Nat.add_comm] at hfinal
  | failed err m =>
    obtain ⟨rfl, herr, hended, hwhy⟩ := hverdict
    have hfailed : s.Failed cfg m err := by
      refine ⟨herr, hended, hwhy.imp_right fun hfinal => ?_⟩
      have hlast := of_decide_eq_true hfinal
      omega
    dsimp only
    by_cases htopic : cfg.deadLetterTopic r.topic = ""
    · rw [if_pos htopic]
      exact .handled hcalls (by simp [herr]) fun _ _ => htopic
    · rw [if_neg htopic]
      obtain ⟨last, hpublishes, hacked⟩ := deadLetter_calls s.publish r
        (deadLetterMessage r (cfg.deadLetterTopic r.topic)
          (if err.isPermanent then "permanent" else "retries_exhausted") err m) cfg.maxRetries 0 mid
      rcases hdlq : deadLetter s.publish r (deadLetterMessage r (cfg.deadLetterTopic r.topic)
          (if err.isPermanent then "permanent" else "retries_exhausted") err m)
        cfg.maxRetries 0 mid with ⟨dlqErr, log'⟩
      rw [hdlq] at hpublishes hacked
      cases dlqErr with
      | none => exact .published hcalls hfailed htopic hpublishes hacked
      | some dlqErr =>
        have hnone : (s.publish last).result ≠ none := fun hack => by simp [hack] at hacked
        dsimp only
        split_ifs <;> exact .published hcalls hfailed htopic hpublishes (by simp [hnone])

def Event.Finishes (r : Message) : Event → Prop
  | .invoked r' _ none | .published r' _ none => r' = r
  | _ => False

/-- The record is finished exactly when one of its calls finished it. -/
theorem Disposed.result_iff {cfg : Config} {r : Message} {s : Script} {log log' : List Event}
    {result : Option Err} (h : Disposed cfg r s log result log') :
    ∃ calls, log' = calls ++ log ∧ (result = none ↔ ∃ e ∈ calls, e.Finishes r) := by
  have hhandler : ∀ i, (s.handler i).goesOn →
      ¬(Event.invoked r i (invoke (s.handler i).result)).Finishes r := by
    rintro i ⟨err, herr, -⟩
    simp [herr, Event.Finishes]
  have hpublish : ∀ msg i, (s.publish i).goesOn →
      ¬(Event.published r msg (s.publish i).result).Finishes r := by
    rintro msg i ⟨hfailed, -⟩ hfinishes
    cases hresult : (s.publish i).result with
    | none => exact hfailed hresult
    | some err => simp [hresult, Event.Finishes] at hfinishes
  cases h with
  | @handled n _ _ handler hresult hno =>
    obtain ⟨calls, hlog, hcalls⟩ := handler.exists_iff hhandler
    refine ⟨calls, hlog, hresult.trans (Iff.trans ?_ hcalls.symm)⟩
    cases invoke (s.handler n).result <;> simp [Event.Finishes]
  | @published n last mid _ _ err handler hfailed htopic publishes hresult =>
    obtain ⟨calls, hmid, hcalls⟩ := handler.exists_iff hhandler
    obtain ⟨more, hlog, hmore⟩ := publishes.exists_iff (hpublish _)
    refine ⟨more ++ calls, by rw [hlog, hmid, append_assoc], hresult.trans ?_⟩
    have hnone : ¬∃ e ∈ calls, e.Finishes r := by
      rw [hcalls, hfailed.1]
      exact id
    have hacked : (s.publish last).result = none ↔ ∃ e ∈ more, e.Finishes r := by
      rw [hmore]
      cases (s.publish last).result <;> simp [Event.Finishes]
    simp only [mem_append, or_and_right, exists_or, hacked, hnone, or_false]

/-- A record that is neither handled nor parked ends the batch: it is not marked, and the rest
of the batch is not looked at. -/
theorem processBatch_stops {cfg : Config} {c c' : State} {before : List Entry} {e : Entry}
    (after : List Entry)
    (hbefore : processBatch cfg c before = (none, c')) (hended : e.ended = false)
    (howns : owns c' e.record = true) {err : Err} {log' : List Event}
    (hprocess : process cfg e.record e.script c'.log = (some err, log')) :
    processBatch cfg c (before ++ e :: after) = (some err, { c' with log := log' }) := by
  induction before generalizing c with
  | nil =>
    obtain rfl : c = c' := (Prod.mk.inj hbefore).2
    simp [processBatch, hended, howns, hprocess]
  | cons x before ih =>
    rw [cons_append]
    simp only [processBatch] at hbefore ⊢
    split at hbefore
    · cases hbefore
    · rename_i hlive
      rw [if_neg hlive]
      split at hbefore
      · rename_i hx
        rw [if_pos hx]
        split at hbefore
        · cases hbefore
        · exact ih hbefore
      · rename_i hx
        rw [if_neg hx]
        exact ih hbefore

def Round.Processes (t : Round) : Prop :=
  t.stopped = false ∧ t.pollErr.any (·.is .clientClosed) = false ∧
    t.pollErr.any (·.is .clientFailed) = false ∧ t.stoppedAfter = false

theorem loop_stops {cfg : Config} {c c' : State} {t : Round} {rounds : List Round} {err : Err}
    (ht : t.Processes) (hbatch : processBatch cfg (poll c t) t.batch = (some err, c')) :
    loop cfg c (t :: rounds) =
      (some (if err.is .draining then none else some err), commitPending c' t.committed) := by
  obtain ⟨hstopped, hclosed, hfailed, hafter⟩ := ht
  have hround : iteration cfg c t =
      (some (if err.is .draining then none else some err), commitPending c' t.committed) := by
    simp only [iteration, hstopped, hclosed, hfailed, hafter, hbatch, Bool.false_eq_true, if_false]
    split <;> rfl
  rw [loop, hround]

/-- The calls `process` makes for a record and when it returns nil, and what follows if it
does not: the record is not marked, no later record of the batch is looked at, and the loop
stops. -/
theorem record_disposition (cfg : Config) (r : Message) (s : Script) (log : List Event) :
    let (result, log') := process cfg r s log
    Disposed cfg r s log result log' ∧
    (∃ calls, log' = calls ++ log ∧ (result = none ↔ ∃ e ∈ calls, e.Finishes r)) ∧
    ∀ err, result = some err →
      ∀ c c' before after, processBatch cfg c before = (none, c') → c'.log = log →
        owns c' r = true →
        processBatch cfg c (before ++ ⟨r, false, s⟩ :: after) = (some err, { c' with log := log' }) ∧
        ∀ c₀ t rounds, t.Processes → poll c₀ t = c → t.batch = before ++ ⟨r, false, s⟩ :: after →
          loop cfg c₀ (t :: rounds) = (some (if err.is .draining then none else some err),
            commitPending { c' with log := log' } t.committed) := by
  have hdisposed := process_disposed cfg r s log
  rcases hprocess : process cfg r s log with ⟨result, log'⟩
  rw [hprocess] at hdisposed
  refine ⟨hdisposed, hdisposed.result_iff, ?_⟩
  rintro err rfl c c' before after hbefore rfl howns
  have hbatch := processBatch_stops (e := ⟨r, false, s⟩) after hbefore rfl howns hprocess
  refine ⟨hbatch, fun c₀ t rounds ht hpoll hrecords => loop_stops ht ?_⟩
  rw [hpoll, hrecords]
  exact hbatch

/-- Two attempts and no dead-letter topic: the record after the one that fails is left alone. -/
theorem record_disposition_disabled :
    let r : Message := ⟨"tasks.events", [], [], 0, 4, [], 0, 0⟩
    let s : Script := ⟨fun _ => ⟨.panicked [], false, false⟩, fun _ => ⟨none, false, false⟩⟩
    let c : State := ⟨∅, [⟨"tasks.events", 0⟩], []⟩
    ∃ err, processBatch ⟨1, "none"⟩ c [⟨r, false, s⟩, ⟨{ r with offset := 5 }, false, s⟩] =
      (some err, { c with log := [.invoked r 2 (invoke (.panicked [])),
        .invoked r 1 (invoke (.panicked []))] }) := by
  intro r s c
  have hlog : (process ⟨1, "none"⟩ r s []).2 =
      [.invoked r 2 (invoke (.panicked [])), .invoked r 1 (invoke (.panicked []))] := by
    decide +kernel
  obtain ⟨err, herr⟩ := isSome_iff_exists.mp
    (show (process ⟨1, "none"⟩ r s []).1.isSome by decide +kernel)
  have hprocess : process ⟨1, "none"⟩ r s [] = (some err, _) := Prod.ext herr hlog
  have hdisposition := record_disposition ⟨1, "none"⟩ r s []
  rw [hprocess] at hdisposition
  exact ⟨err, (hdisposition.2.2 err rfl c c [] [⟨{ r with offset := 5 }, false, s⟩] rfl rfl rfl).1⟩

end GolangBasics.Kafka.Consumer
