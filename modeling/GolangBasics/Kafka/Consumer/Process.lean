import GolangBasics.Kafka.Consumer.Offsets

/-! One record through `Consumer.process`: handler attempts, then the dead-letter topic. The
answers of the handler, the dead-letter producer and the contexts come from a script. -/
namespace GolangBasics.Kafka.Consumer
open List

/-- The part of `kafka.Config` that decides what happens to a record. -/
structure Config where
  MaxRetries : Int
  DeadLetterTopic : String

/-- `strings.ReplaceAll` for a non-empty `old`; `skip` characters belong to a match. -/
def replaceAll (old new : List Char) : Nat → List Char → List Char
  | _, [] => []
  | skip + 1, _ :: cs => replaceAll old new skip cs
  | 0, c :: cs =>
    if old.isPrefixOf (c :: cs) then new ++ replaceAll old new (old.length - 1) cs
    else c :: replaceAll old new 0 cs

def Config.maxRetries (cfg : Config) : Nat := cfg.MaxRetries.toNat

def Config.deadLetterTopic (cfg : Config) (source : String) : String :=
  if cfg.DeadLetterTopic = "none" ∨ cfg.DeadLetterTopic = "-" then "" else
  String.ofList
    (replaceAll "\x7btopic\x7d".toList source.toList 0 cfg.DeadLetterTopic.toList)

inductive HandlerResult where
  | ok
  | failed (err : Err)
  | panicked (value : Bytes)

def invoke : HandlerResult → Option Err
  | .ok => none
  | .failed err => some err
  | .panicked value => some (.new (utf8 "kafka: handler panic: " ++ value))

/-- A handler call, whether the context had ended when it failed, and whether it ended
during the wait before the next one. -/
structure Attempt where
  result : HandlerResult
  ended : Bool
  interrupted : Bool

structure Publish where
  result : Option Err
  ended : Bool
  interrupted : Bool

structure Script where
  handler : Nat → Attempt
  publish : Nat → Publish

inductive Tried where
  | done
  | draining
  | failed (err : Err) (attempt : Nat)

/-- The attempt loop of `process`, with `left` retries to go. -/
def tryHandler (handler : Nat → Attempt) (r : Message) :
    Nat → Nat → List Event → Tried × List Event
  | left, attempt, log =>
    let a := handler attempt
    let log := .invoked r attempt (invoke a.result) :: log
    match invoke a.result with
    | none => (.done, log)
    | some err =>
      if a.ended then (.draining, log)
      else if err.isPermanent then (.failed err attempt, log)
      else match left with
        | 0 => (.failed err attempt, log)
        | left + 1 =>
          if a.interrupted then (.draining, log)
          else tryHandler handler r left (attempt + 1) log
termination_by structural left => left

def dlqKeys : List String :=
  ["dlq_reason", "dlq_error", "dlq_source_topic", "dlq_source_partition", "dlq_source_offset",
    "dlq_attempts"]

def maxDLQErrorBytes : Nat := 1024

def deadLetterMessage (r : Message) (topic reason : String) (cause : Err) (attempts : Nat) :
    Message where
  topic := topic
  key := r.key
  value := r.value
  partition := 0
  offset := 0
  headers := r.headers.filter (fun h => h.key ∉ dlqKeys) ++
    [⟨"dlq_reason", utf8 reason⟩, ⟨"dlq_error", cause.text.take maxDLQErrorBytes⟩,
      ⟨"dlq_source_topic", utf8 r.topic⟩, ⟨"dlq_source_partition", utf8 (toString r.partition)⟩,
      ⟨"dlq_source_offset", utf8 (toString r.offset)⟩, ⟨"dlq_attempts", utf8 (toString attempts)⟩]
  timestamp := 0
  attempt := 0

/-- The publish loop of `deadLetter`, with `left` retries to go. -/
def deadLetter (publish : Nat → Publish) (r msg : Message) :
    Nat → Nat → List Event → Option Err × List Event
  | left, n, log =>
    let p := publish n
    let log := .published r msg p.result :: log
    match p.result with
    | none => (none, log)
    | some err =>
      if p.ended then (some (.sentinel .draining), log)
      else match left with
        | 0 => (some err, log)
        | left + 1 =>
          if p.interrupted then (some (.sentinel .draining), log)
          else deadLetter publish r msg left (n + 1) log
termination_by structural left => left

def recordName (r : Message) : String :=
  "kafka: record " ++ r.topic ++ "/" ++ toString r.partition ++ "@" ++ toString r.offset

/-- `none` means "done, commit it". -/
def process (cfg : Config) (r : Message) (s : Script) (log : List Event) :
    Option Err × List Event :=
  match tryHandler s.handler r cfg.maxRetries 1 log with
  | (.done, log) => (none, log)
  | (.draining, log) => (some (.sentinel .draining), log)
  | (.failed err attempt, log) =>
    let reason := if err.isPermanent then "permanent" else "retries_exhausted"
    let dlqTopic := cfg.deadLetterTopic r.topic
    if dlqTopic = "" then
      (some (.wrap (recordName r ++ " failed after " ++ toString attempt ++ " attempt(s) (" ++
        reason ++ ") and the dead-letter topic is disabled: ") err), log)
    else
      match deadLetter s.publish r (deadLetterMessage r dlqTopic reason err attempt)
          cfg.maxRetries 0 log with
      | (none, log) => (none, log)
      | (some dlqErr, log) =>
        if dlqErr.is .draining then (some (.sentinel .draining), log)
        else (some (.wrap (recordName r ++ " failed and could not be dead-lettered to \"" ++
          dlqTopic ++ "\": ") (.pair err "\n" dlqErr)), log)

def Finished (cfg : Config) (r : Message) (events : List Event) : Prop :=
  (∃ n, .invoked r n none ∈ events) ∨ ∃ reason cause n,
    .published r (deadLetterMessage r (cfg.deadLetterTopic r.topic) reason cause n) none ∈ events

theorem Finished.mono {cfg : Config} {r : Message} {events events' : List Event}
    (h : Finished cfg r events) (hsub : events ⊆ events') : Finished cfg r events' := by
  rcases h with ⟨n, h⟩ | ⟨reason, cause, n, h⟩
  · exact .inl ⟨n, hsub h⟩
  · exact .inr ⟨reason, cause, n, hsub h⟩

def Event.isCall : Event → Bool
  | .invoked .. | .published .. => true
  | _ => false

private theorem calls_snoc {calls log : List Event} {e : Event} (he : e.isCall)
    (hcalls : ∀ e ∈ calls, e.isCall) :
    calls ++ e :: log = (calls ++ [e]) ++ log ∧ ∀ e' ∈ calls ++ [e], e'.isCall := by
  refine ⟨by simp, fun e' h => ?_⟩
  rcases mem_append.mp h with h | h
  · exact hcalls e' h
  · rwa [mem_singleton.mp h]

theorem tryHandler_log (handler : Nat → Attempt) (r : Message) (left attempt : Nat)
    (log : List Event) :
    ∃ calls, (tryHandler handler r left attempt log).2 = calls ++ log ∧
      (∀ e ∈ calls, e.isCall) ∧
      ((tryHandler handler r left attempt log).1 = .done → ∃ n, .invoked r n none ∈ calls) := by
  fun_induction tryHandler handler r left attempt log with
  | case1 left attempt log a log' h =>
    exact ⟨[.invoked r attempt (invoke a.result)], rfl, by simp [Event.isCall],
      fun _ => ⟨attempt, by simp [h]⟩⟩
  | case6 attempt log a log' err h hended hperm left hint ih =>
    obtain ⟨calls, hlog, hcalls, hdone⟩ := ih
    have hsnoc := @calls_snoc calls log (.invoked r attempt (invoke a.result)) rfl hcalls
    refine ⟨_, hlog.trans hsnoc.1, hsnoc.2, fun h => ?_⟩
    obtain ⟨n, hn⟩ := hdone h
    exact ⟨n, mem_append_left _ hn⟩
  | _ => exact ⟨[_], rfl, by simp [Event.isCall], by simp⟩

theorem deadLetter_log (publish : Nat → Publish) (r msg : Message) (left n : Nat)
    (log : List Event) :
    ∃ calls, (deadLetter publish r msg left n log).2 = calls ++ log ∧ (∀ e ∈ calls, e.isCall) ∧
      ((deadLetter publish r msg left n log).1 = none → .published r msg none ∈ calls) := by
  fun_induction deadLetter publish r msg left n log with
  | case1 left n log p log' h =>
    exact ⟨[.published r msg p.result], rfl, by simp [Event.isCall], by simp [h]⟩
  | case5 n log p log' err h hended left hint ih =>
    obtain ⟨calls, hlog, hcalls, hdone⟩ := ih
    have hsnoc := @calls_snoc calls log (.published r msg p.result) rfl hcalls
    exact ⟨_, hlog.trans hsnoc.1, hsnoc.2, fun h => mem_append_left _ (hdone h)⟩
  | _ => exact ⟨[_], rfl, by simp [Event.isCall], by simp⟩

/-- `process` only makes calls for the record, and returns nil when one of them finished it. -/
theorem process_log (cfg : Config) (r : Message) (s : Script) (log : List Event) :
    ∃ calls, (process cfg r s log).2 = calls ++ log ∧ (∀ e ∈ calls, e.isCall) ∧
      ((process cfg r s log).1 = none → Finished cfg r calls) := by
  obtain ⟨calls, hlog, hcalls, hdone⟩ := tryHandler_log s.handler r cfg.maxRetries 1 log
  unfold process
  rcases htry : tryHandler s.handler r cfg.maxRetries 1 log with ⟨tried, log'⟩
  rw [htry] at hlog hdone
  cases tried with
  | done => exact ⟨calls, hlog, hcalls, fun _ => .inl (hdone rfl)⟩
  | draining => exact ⟨calls, hlog, hcalls, by simp⟩
  | failed err attempt =>
    simp only
    generalize (if err.isPermanent then "permanent" else "retries_exhausted") = reason
    split_ifs with htopic
    · exact ⟨calls, hlog, hcalls, by simp⟩
    · obtain ⟨more, hmore, hcalls', hpub⟩ := deadLetter_log s.publish r
        (deadLetterMessage r (cfg.deadLetterTopic r.topic) reason err attempt) cfg.maxRetries 0 log'
      rcases hdl : deadLetter s.publish r
        (deadLetterMessage r (cfg.deadLetterTopic r.topic) reason err attempt)
        cfg.maxRetries 0 log' with ⟨dlq, log''⟩
      rw [hdl] at hmore hpub
      have hlog'' : log'' = (more ++ calls) ++ log := by simp_all
      have hall : ∀ e ∈ more ++ calls, e.isCall := by
        intro e he
        rcases mem_append.mp he with he | he
        · exact hcalls' e he
        · exact hcalls e he
      cases dlq with
      | none =>
        refine ⟨more ++ calls, hlog'', hall, fun _ => .inr ⟨reason, err, attempt, ?_⟩⟩
        exact mem_append_left _ (hpub rfl)
      | some dlqErr =>
        simp only
        split_ifs <;> exact ⟨more ++ calls, hlog'', hall, by simp⟩

end GolangBasics.Kafka.Consumer
