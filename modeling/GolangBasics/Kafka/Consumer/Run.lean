import GolangBasics.Kafka.Consumer.History
import GolangBasics.Kafka.Consumer.Process

/-! `Consumer.Run`: the poll, process, commit loop over any number of rounds, and the
callbacks of the final `Close`. -/
namespace GolangBasics.Kafka.Consumer
open List

/-- A polled record, whether the drain budget had run out when the loop came to it, and
what happens to it otherwise. -/
structure Entry where
  record : Message
  ended : Bool
  script : Script

/-- Stops at the first record that was neither handled nor parked. -/
def processBatch (cfg : Config) : State → List Entry → Option Err × State
  | c, [] => (none, c)
  | c, e :: batch =>
    if e.ended then (some (.sentinel .draining), c)
    else if owns c e.record then
      match process cfg e.record e.script c.log with
      | (some err, log) => (some err, { c with log })
      | (none, log) => processBatch cfg (markDone { c with log } e.record) batch
    else processBatch cfg c batch

/-- One turn of the loop: whether the context had ended before and after the poll, the
callbacks that ran inside it with the outcome of their commits, what it returned, and the
outcome of the commit after the batch. -/
structure Round where
  stopped : Bool
  callbacks : List (Rebalance × Bool)
  batch : List Entry
  pollErr : Option Err
  stoppedAfter : Bool
  committed : Bool

def Round.records (t : Round) : List Message := t.batch.map Entry.record

def onCallbacks (c : State) (callbacks : List (Rebalance × Bool)) : State :=
  callbacks.foldl (fun c cb => onRebalance c cb.2 cb.1) c

def poll (c : State) (t : Round) : State :=
  let c := onCallbacks c t.callbacks
  { c with log := .polled t.records :: c.log }

/-- `some` holds what `Run` returns, `none` when the loop goes on. -/
def iteration (cfg : Config) (c : State) (t : Round) : Option (Option Err) × State :=
  if t.stopped then (some none, c) else
  let c := poll c t
  if t.pollErr.any (·.is .clientClosed) then (some none, c)
  else if t.pollErr.any (·.is .clientFailed) then (some t.pollErr, c)
  else if t.stoppedAfter then (some none, c)
  else
    let (err, c) := processBatch cfg c t.batch
    let c := commitPending c t.committed
    match err with
    | none => (none, c)
    | some err => if err.is .draining then (some none, c) else (some (some err), c)

def loop (cfg : Config) : State → List Round → Option (Option Err) × State
  | c, [] => (none, c)
  | c, t :: rounds =>
    match iteration cfg c t with
    | (none, c) => loop cfg c rounds
    | (some err, c) => (some err, c)

/-- `Run` for as many rounds as given. When the loop has returned, the deferred `Close` runs
its callbacks. -/
def run (cfg : Config) (rounds : List Round) (closing : List (Rebalance × Bool)) :
    Option (Option Err) × State :=
  match loop cfg State.new rounds with
  | (none, c) => (none, c)
  | (some err, c) => (some err, onCallbacks c closing)

def polls (p : TopicPartition) (events : List Event) : List Message :=
  events.flatMap fun
    | .polled records => records.filter fun r => r.tp = p
    | _ => []

def polledIn (p : TopicPartition) (log : List Event) : List Message := polls p (period p log)

/-- The driver's promise for one poll: while a partition stays assigned its records come in
strictly increasing offset order. -/
def InOrder (log : List Event) (records : List Message) : Prop :=
  (∀ r ∈ records, ownedIn r.tp log → ∀ r' ∈ polledIn r.tp log, r'.offset < r.offset) ∧
    records.Pairwise fun a b => a.tp = b.tp → ownedIn a.tp log → a.offset < b.offset

instance (log : List Event) (records : List Message) : Decidable (InOrder log records) :=
  inferInstanceAs (Decidable (_ ∧ _))

def Delivers (cfg : Config) : State → List Round → Prop
  | _, [] => True
  | c, t :: rounds =>
    (t.stopped = false → InOrder (onCallbacks c t.callbacks).log t.records) ∧
      ((iteration cfg c t).1 = none → Delivers cfg (iteration cfg c t).2 rounds)

/-- `off` was polled, and everything polled up to it is finished. -/
def Passed (cfg : Config) (p : TopicPartition) (off : Int) (events : List Event) : Prop :=
  ∃ r ∈ polls p events, r.offset = off ∧
    ∀ r' ∈ polls p events, r'.offset ≤ off → Finished cfg r' events

def Event.isPolled : Event → Bool
  | .polled _ => true
  | _ => false

variable {p : TopicPartition}

theorem polls_cons {e : Event} (he : e.isPolled = false) (events : List Event) :
    polls p (e :: events) = polls p events := by
  cases e <;> simp_all [polls, Event.isPolled]

theorem polls_polled (p : TopicPartition) (records : List Message) (events : List Event) :
    polls p (.polled records :: events) = records.filter (fun r => r.tp = p) ++ polls p events :=
  rfl

variable {r : Message}

theorem tp_of_mem_polls {events : List Event} (h : r ∈ polls p events) : r.tp = p := by
  obtain ⟨e, -, h⟩ := mem_flatMap.mp h
  cases e with
  | polled records => simpa using (mem_filter.mp h).2
  | _ => simp at h

theorem passed_cons (cfg : Config) (p : TopicPartition) (off : Int) (events : List Event)
    (e : Event) (he : e.isPolled = false) (h : Passed cfg p off events) :
    Passed cfg p off (e :: events) := by
  obtain ⟨r, hr, hoff, hdone⟩ := h
  rw [← polls_cons he] at hr
  refine ⟨r, hr, hoff, fun r' hr' hle => ?_⟩
  rw [polls_cons he] at hr'
  exact (hdone r' hr' hle).mono (subset_cons_self _ _)

theorem passed_passive (cfg : Config) (p : TopicPartition) (off : Int) (events : List Event)
    (e : Event) (he : e.passive) (h : Passed cfg p off events) : Passed cfg p off (e :: events) :=
  passed_cons cfg p off events e (by cases e <;> simp_all [Event.passive, Event.isPolled]) h

/-- In the middle of a batch with `rest` still to come: everything polled is finished or in
`rest`, which continues the order of offsets. -/
structure Batch (cfg : Config) (c : State) (rest : List Message) : Prop where
  tracks : Tracks (Passed cfg) c
  todo : ∀ p, ∀ r ∈ polledIn p c.log, Finished cfg r (period p c.log) ∨ r ∈ rest
  polled : ∀ r ∈ rest, ownedIn r.tp c.log → r ∈ polledIn r.tp c.log
  ordered : rest.Pairwise fun a b => a.tp = b.tp → ownedIn a.tp c.log → a.offset < b.offset

theorem polledIn_cons {e : Event} {log : List Event} (he : e.isPolled = false)
    (hr : r ∈ polledIn p (e :: log)) :
    r ∈ polledIn p log ∧ period p (e :: log) = e :: period p log := by
  rw [polledIn] at hr
  rcases period_cons_cases p e log with ⟨hp, -⟩ | ⟨hp, -⟩
  · rw [hp, polls_cons he] at hr
    exact ⟨hr, hp⟩
  · simp [hp, polls] at hr

variable {cfg : Config} {c : State} {rest : List Message}

theorem batch_cons {c' : State} (hc : Batch cfg c rest) {e : Event} (hlog : c'.log = e :: c.log)
    (he : e.isPolled = false) (htracks : Tracks (Passed cfg) c')
    (howned : ∀ r ∈ rest, ownedIn r.tp (e :: c.log) → ownedIn r.tp c.log) : Batch cfg c' rest := by
  refine ⟨htracks, fun p r hr => ?_, fun r hr ho => ?_, ?_⟩
  · rw [hlog] at hr ⊢
    obtain ⟨hr, hp⟩ := polledIn_cons he hr
    rw [hp]
    exact (hc.todo p r hr).imp_left fun h => h.mono (subset_cons_self _ _)
  · rw [hlog] at ho ⊢
    rw [polledIn, period, if_pos ho, polls_cons he]
    exact hc.polled r hr (howned r hr ho)
  · rw [hlog]
    refine List.Pairwise.imp_of_mem (fun {a b} ha _ h htp ho => ?_) hc.ordered
    exact h htp (howned a ha ho)

theorem batch_passive {c' : State} (hc : Batch cfg c []) {new : List Event}
    (hlog : c'.log = new ++ c.log) (hnew : ∀ e ∈ new, e.passive) (htracks : Tracks (Passed cfg) c') :
    Batch cfg c' [] := by
  refine ⟨htracks, fun p r hr => ?_, by simp, List.Pairwise.nil⟩
  rw [hlog] at hr ⊢
  clear hlog htracks
  induction new with
  | nil => exact hc.todo p r hr
  | cons e new ih =>
    have he : e.isPolled = false := by
      have := hnew e mem_cons_self
      cases e <;> simp_all [Event.passive, Event.isPolled]
    rw [cons_append] at hr ⊢
    obtain ⟨hr, hp⟩ := polledIn_cons he hr
    rw [hp]
    exact (ih (fun e he => hnew e (mem_cons_of_mem _ he)) hr).imp_left
      fun h => h.mono (subset_cons_self _ _)

theorem batch_onCallbacks (hc : Batch cfg c []) (callbacks : List (Rebalance × Bool)) :
    Batch cfg (onCallbacks c callbacks) [] := by
  induction callbacks generalizing c with
  | nil => exact hc
  | cons cb callbacks ih =>
    obtain ⟨new, hlog, hnew⟩ := onRebalance_passive c cb.2 cb.1
    exact ih (batch_passive hc hlog hnew
      (tracks_onRebalance (passed_passive cfg) hc.tracks cb.2 cb.1))

theorem tracks_onCallbacks (hc : Tracks (Passed cfg) c) (callbacks : List (Rebalance × Bool)) :
    Tracks (Passed cfg) (onCallbacks c callbacks) := by
  induction callbacks generalizing c with
  | nil => exact hc
  | cons cb callbacks ih => exact ih (tracks_onRebalance (passed_passive cfg) hc cb.2 cb.1)

theorem batch_polled (hc : Batch cfg c []) {records : List Message} (hr : InOrder c.log records) :
    Batch cfg { c with log := .polled records :: c.log } records := by
  have howned : ∀ p, ownedIn p (.polled records :: c.log) = ownedIn p c.log :=
    fun p => ownedIn_cons rfl
  refine ⟨tracks_cons hc.tracks (fun p => ?_) (fun p off h => ?_) (by simp), fun p r hmem => ?_,
    fun r hmem ho => ?_, ?_⟩
  · rw [howned]
    exact hc.tracks.owned p
  · obtain ⟨ho, r, hmem, hoff, hdone⟩ := hc.tracks.pending p off h
    refine ⟨ho, r, ?_, hoff, fun r' hr' hle => ?_⟩
    · rw [polls_polled]
      exact mem_append_right _ hmem
    · rw [polls_polled] at hr'
      rcases mem_append.mp hr' with hr' | hr'
      -- a record of this poll lies past the pending offset
      · obtain ⟨hin, htp⟩ := mem_filter.mp hr'
        obtain rfl : r'.tp = p := by simpa using htp
        have := hr.1 r' hin ((hc.tracks.owned _).mp ho) r hmem
        omega
      · exact (hdone r' hr' hle).mono (subset_cons_self _ _)
  · rcases period_cons_cases p (.polled records) c.log with ⟨hp, -⟩ | ⟨hp, -⟩
    · rw [polledIn, hp, polls_polled] at hmem
      rw [hp]
      rcases mem_append.mp hmem with hmem | hmem
      · exact .inr (mem_filter.mp hmem).1
      · have hfin : Finished cfg r (period p c.log) := by simpa using hc.todo p r hmem
        exact .inl (hfin.mono (subset_cons_self _ _))
    · simp [polledIn, hp, polls] at hmem
  · rw [polledIn, period, if_pos ho, polls_polled]
    exact mem_append_left _ (mem_filter.mpr ⟨hmem, by simp⟩)
  · simpa only [howned] using hr.2

theorem batch_calls (hc : Batch cfg c rest) {calls : List Event} (hcalls : ∀ e ∈ calls, e.isCall) :
    Batch cfg { c with log := calls ++ c.log } rest := by
  induction calls with
  | nil => exact hc
  | cons e calls ih =>
    have ih := ih fun e he => hcalls e (mem_cons_of_mem _ he)
    have hcall := hcalls e mem_cons_self
    have hmoves : ∀ p, e.moves p = false := by
      intro p
      cases e <;> simp_all [Event.isCall, Event.moves]
    have hpolled : e.isPolled = false := by cases e <;> simp_all [Event.isCall, Event.isPolled]
    refine batch_cons ih rfl hpolled (tracks_cons ih.tracks (fun p => ?_) (fun p off h => ?_) ?_) ?_
    · rw [ownedIn_cons (hmoves p)]
      exact ih.tracks.owned p
    · obtain ⟨ho, hp⟩ := ih.tracks.pending p off h
      exact ⟨ho, passed_cons cfg p off _ e hpolled hp⟩
    · rintro offsets ok rfl
      simp [Event.isCall] at hcall
    · intro r _ ho
      rwa [ownedIn_cons (hmoves _)] at ho

theorem batch_tail (hc : Batch cfg c (r :: rest))
    (hr : r ∈ polledIn r.tp c.log → Finished cfg r (period r.tp c.log)) : Batch cfg c rest := by
  refine ⟨hc.tracks, fun p r' hr' => ?_, fun r' hr' => hc.polled r' (mem_cons_of_mem _ hr'),
    (pairwise_cons.mp hc.ordered).2⟩
  rcases hc.todo p r' hr' with h | h
  · exact .inl h
  · rcases mem_cons.mp h with rfl | h
    · obtain rfl := tp_of_mem_polls hr'
      exact .inl (hr hr')
    · exact .inr h

theorem batch_markDone (hc : Batch cfg c (r :: rest)) (ho : owns c r)
    (hfin : Finished cfg r (period r.tp c.log)) : Batch cfg (markDone c r) rest := by
  have hown : r.tp ∈ c.owned := by simpa [owns] using ho
  have hownlog := (hc.tracks.owned r.tp).mp hown
  have hafter := (pairwise_cons.mp hc.ordered).1
  have hrest : Batch cfg c rest := batch_tail hc fun _ => hfin
  have hpassed : Passed cfg r.tp r.offset (period r.tp c.log) := by
    refine ⟨r, hc.polled r mem_cons_self hownlog, rfl, fun r' hr' hle => ?_⟩
    rcases hrest.todo r.tp r' hr' with h | h
    · exact h
    · have := hafter r' h (tp_of_mem_polls hr').symm hownlog
      omega
  refine batch_cons hrest rfl rfl (tracks_cons hc.tracks (fun p => ?_) (fun p off h => ?_) (by simp))
    fun r' _ h => by rwa [ownedIn_cons rfl] at h
  · rw [ownedIn_cons rfl]
    exact hc.tracks.owned p
  · by_cases hp : p = r.tp
    · subst hp
      obtain rfl : r.offset = off := by simpa using h
      exact ⟨hown, passed_cons cfg _ _ _ _ rfl hpassed⟩
    · rw [AList.lookup_insert_ne hp] at h
      obtain ⟨ho, hp⟩ := hc.tracks.pending p off h
      exact ⟨ho, passed_cons cfg _ _ _ _ rfl hp⟩

theorem batch_skip (hc : Batch cfg c (r :: rest)) (ho : ¬ owns c r) : Batch cfg c rest := by
  have hnot : ownedIn r.tp c.log = false := by
    rw [← Bool.not_eq_true, ← hc.tracks.owned]
    simpa [owns] using ho
  refine batch_tail hc fun hr => ?_
  simp [polledIn, period_of_not_owned hnot, polls] at hr

theorem period_calls {log calls : List Event} (ho : ownedIn p log) (hcalls : ∀ e ∈ calls, e.isCall) :
    period p (calls ++ log) = calls ++ period p log ∧
      ownedIn p (calls ++ log) := by
  induction calls with
  | nil => exact ⟨rfl, ho⟩
  | cons e calls ih =>
    obtain ⟨hp, ho'⟩ := ih fun e he => hcalls e (mem_cons_of_mem _ he)
    have hmoves : e.moves p = false := by
      have := hcalls e mem_cons_self
      cases e <;> simp_all [Event.isCall, Event.moves]
    rw [cons_append, period_cons hmoves, if_pos ho', hp, ownedIn_cons hmoves]
    exact ⟨rfl, ho'⟩

theorem processBatch_batch {batch : List Entry} (hc : Batch cfg c (batch.map Entry.record)) :
    Tracks (Passed cfg) (processBatch cfg c batch).2 ∧
      ((processBatch cfg c batch).1 = none → Batch cfg (processBatch cfg c batch).2 []) := by
  induction batch generalizing c with
  | nil => exact ⟨hc.tracks, fun _ => hc⟩
  | cons e batch ih =>
    rw [map_cons] at hc
    unfold processBatch
    split_ifs with hended ho
    · exact ⟨hc.tracks, by simp⟩
    · obtain ⟨calls, hlog, hcalls, hdone⟩ := process_log cfg e.record e.script c.log
      rcases hproc : process cfg e.record e.script c.log with ⟨err, log⟩
      rw [hproc] at hlog hdone
      obtain rfl : log = calls ++ c.log := hlog
      have hbatch := batch_calls hc hcalls
      cases err with
      | some err => exact ⟨hbatch.tracks, by simp⟩
      | none =>
        refine ih (batch_markDone hbatch ho ?_)
        have hown : ownedIn e.record.tp c.log :=
          (hc.tracks.owned _).mp (by simpa [owns] using ho)
        rw [(period_calls hown hcalls).1]
        exact (hdone rfl).mono (subset_append_left _ _)
    · exact ih (batch_skip hc ho)

theorem iteration_batch (hc : Batch cfg c []) {t : Round}
    (ht : t.stopped = false → InOrder (onCallbacks c t.callbacks).log t.records) :
    Tracks (Passed cfg) (iteration cfg c t).2 ∧
      ((iteration cfg c t).1 = none → Batch cfg (iteration cfg c t).2 []) := by
  unfold iteration
  by_cases hstop : t.stopped = true
  · rw [if_pos hstop]
    exact ⟨hc.tracks, by simp⟩
  · have hpoll : Batch cfg (poll c t) t.records :=
      batch_polled (batch_onCallbacks hc t.callbacks) (ht (by simpa using hstop))
    obtain ⟨htracks, hbatch⟩ := processBatch_batch hpoll
    have hcommit := tracks_commitLocked (passed_passive cfg) htracks none t.committed
    rw [if_neg hstop]
    simp only
    split_ifs
    · exact ⟨hpoll.tracks, by simp⟩
    · exact ⟨hpoll.tracks, by simp⟩
    · exact ⟨hpoll.tracks, by simp⟩
    · cases herr : (processBatch cfg (poll c t) t.batch).1 with
      | none =>
        obtain ⟨new, hlog, hnew⟩ := commitLocked_passive
          (processBatch cfg (poll c t) t.batch).2 none t.committed
        exact ⟨hcommit, fun _ => batch_passive (hbatch herr) hlog hnew hcommit⟩
      | some err =>
        simp only
        split_ifs <;> exact ⟨hcommit, by simp⟩

theorem loop_tracks (hc : Batch cfg c []) {rounds : List Round} (h : Delivers cfg c rounds) :
    Tracks (Passed cfg) (loop cfg c rounds).2 := by
  induction rounds generalizing c with
  | nil => exact hc.tracks
  | cons t rounds ih =>
    obtain ⟨ht, hrest⟩ := h
    obtain ⟨htracks, hbatch⟩ := iteration_batch hc ht
    unfold loop
    rcases hit : iteration cfg c t with ⟨_ | err, c'⟩
    · rw [hit] at hbatch hrest
      exact ih (hbatch rfl) (hrest rfl)
    · rw [hit] at htracks
      exact htracks

theorem run_tracks {rounds : List Round} (closing : List (Rebalance × Bool))
    (h : Delivers cfg State.new rounds) : Tracks (Passed cfg) (run cfg rounds closing).2 := by
  have hnew : Batch cfg State.new [] :=
    ⟨tracks_new, fun p r hr => by simp [polledIn, State.new, period, polls] at hr, by simp,
      List.Pairwise.nil⟩
  have hloop := loop_tracks hnew h
  unfold run
  rcases hl : loop cfg State.new rounds with ⟨_ | err, c⟩
  · rw [hl] at hloop
    exact hloop
  · rw [hl] at hloop
    exact tracks_onCallbacks hloop closing

/-- At least once: whatever `Commit` is called with, all records polled before the committed
offset since the partition was assigned are finished, and the offset is one past such a
record. -/
theorem run_at_least_once (cfg : Config) (rounds : List Round)
    (closing : List (Rebalance × Bool)) (h : Delivers cfg State.new rounds) :
    ∀ post offsets ok pre,
      (run cfg rounds closing).2.log = post ++ .commit offsets ok :: pre → ∀ o ∈ offsets,
        (∀ r ∈ polledIn o.tp pre, r.offset < o.next → Finished cfg r (period o.tp pre)) ∧
        ∃ r ∈ polledIn o.tp pre, Finished cfg r (period o.tp pre) ∧ o.next = r.offset + 1 := by
  intro post offsets ok pre hlog o ho
  obtain ⟨-, r, hr, hoff, hdone⟩ := (run_tracks closing h).commits post offsets ok pre hlog o ho
  refine ⟨fun r' hr' hlt => hdone r' hr' (by omega), r, hr, hdone r hr (by omega), by omega⟩

/-- A record that succeeds at the second attempt and one that is parked; the commit after
the batch fails, and the context ends before the next poll. -/
def parkThenStop : List Round :=
  let record (offset : Int) : Message := ⟨"tasks.events", [], [], 0, offset, [], 0, 0⟩
  let slow : Script :=
    ⟨fun n => ⟨if n = 1 then .panicked [] else .ok, false, false⟩, fun _ => ⟨none, false, false⟩⟩
  let poison : Script :=
    ⟨fun _ => ⟨.failed (.permanent (.new [])), false, false⟩, fun _ => ⟨none, false, false⟩⟩
  [⟨false, [(.assigned (some [⟨"tasks.events", 0⟩]), true)],
      [⟨record 4, false, slow⟩, ⟨record 5, false, poison⟩], none, false, false⟩,
    ⟨true, [], [], none, true, true⟩]

def parkThenClose : Option (Option Err) × State :=
  run ⟨3, "dlq"⟩ parkThenStop [(.revoked (some [⟨"tasks.events", 0⟩]), true)]

/-- The commit of the revoke during `Close` covers both records. -/
theorem run_at_least_once_parkThenClose :
    ∃ pre, parkThenClose.2.log =
        [.revoked [⟨"tasks.events", 0⟩]] ++ .commit [⟨⟨"tasks.events", 0⟩, 6⟩] true :: pre ∧
      ∃ r ∈ polledIn ⟨"tasks.events", 0⟩ pre,
        Finished ⟨3, "dlq"⟩ r (period ⟨"tasks.events", 0⟩ pre) ∧ 6 = r.offset + 1 := by
  have hdelivers : Delivers ⟨3, "dlq"⟩ State.new parkThenStop :=
    ⟨fun _ => by decide, fun _ => ⟨fun h => by simp at h, fun _ => trivial⟩⟩
  have hlog : parkThenClose.2.log = [.revoked [⟨"tasks.events", 0⟩]] ++
      .commit [⟨⟨"tasks.events", 0⟩, 6⟩] true :: parkThenClose.2.log.tail.tail := by decide +kernel
  exact ⟨_, hlog, (run_at_least_once ⟨3, "dlq"⟩ parkThenStop _ hdelivers _ _ _ _ hlog
    ⟨⟨"tasks.events", 0⟩, 6⟩ (by simp)).2⟩

end GolangBasics.Kafka.Consumer
