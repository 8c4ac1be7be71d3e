import GolangBasics.Conc.Trace
import GolangBasics.Runes
import GolangBasics.Tasks.Outbox.Relay

/-! What a pass writes into `last_error`, and what the database makes of it. -/
namespace GolangBasics.Tasks.Outbox
open Conc Conc.Prog List

def Storable (text : Bytes) : Prop := validString text = true ∧ 0 ∉ text

instance (text : Bytes) : Decidable (Storable text) := inferInstanceAs (Decidable (_ ∧ _))

/-- The texts of which `truncate` makes something that can be stored. -/
def Recordable (text : Bytes) : Prop :=
  0 ∉ text.take 1000 ∧ (text.length ≤ 1000 → validString text = true)

theorem truncate_of_le {text : Bytes} {n : Nat} (h : text.length ≤ n) : truncate text n = text :=
  if_pos h

theorem length_truncate_le (text : Bytes) (n : Nat) : (truncate text n).length ≤ n := by
  unfold truncate
  split
  · assumption
  · exact (length_toValidUTF8_le _).trans (length_take_le n text)

/-- Only a text that is cut is cleaned, and a NUL byte is never taken out. -/
theorem storable_truncate_iff (text : Bytes) :
    Storable (truncate text 1000) ↔ Recordable text := by
  unfold Storable Recordable truncate
  by_cases h : text.length ≤ 1000
  · rw [if_pos h, take_of_length_le h]
    constructor
    · rintro ⟨hvalid, hnul⟩
      exact ⟨hnul, fun _ => hvalid⟩
    · rintro ⟨hnul, hvalid⟩
      exact ⟨hvalid h, hnul⟩
  · rw [if_neg h, nul_mem_toValidUTF8]
    constructor
    · rintro ⟨-, hnul⟩
      exact ⟨hnul, fun hle => absurd hle h⟩
    · rintro ⟨hnul, -⟩
      exact ⟨validString_toValidUTF8 _, hnul⟩

def Req.lastError : Req → Option Bytes
  | .recordRejection _ text _ | .recordFailure _ text => some text
  | _ => none

def publishErr : Reply Req Rep → Option Err
  | ⟨.send .., result⟩ => result
  | _ => none

def refused : Reply Req Rep → Bool
  | ⟨.recordRejection .., .error _⟩ | ⟨.recordFailure .., some _⟩ => true
  | _ => false

def written (events : List (Reply Req Rep)) : List Bytes := events.filterMap fun e => e.1.lastError

def failures (events : List (Reply Req Rep)) : List Err := events.filterMap publishErr

/-- The texts written are those of the broker's errors, in their order. -/
def Recorded (events : List (Reply Req Rep)) : Prop :=
  written events = (failures events).map fun err => truncate err.text 1000

theorem Recorded.append {before after : List (Reply Req Rep)} (hbefore : Recorded before)
    (hafter : Recorded after) : Recorded (before ++ after) := by
  unfold Recorded written failures at *
  rw [filterMap_append, filterMap_append, map_append, hbefore, hafter]

theorem Recorded.cons {e : Reply Req Rep} {events : List (Reply Req Rep)}
    (hwritten : e.1.lastError = none) (hfailure : publishErr e = none) (h : Recorded events) :
    Recorded (e :: events) := by
  unfold Recorded written failures at *
  simp only [filterMap_cons, hwritten, hfailure, h]

theorem Recorded.error {r : Req} {id : Nat} {msg : Kafka.Message} {err : Err} {x : Rep r}
    {events : List (Reply Req Rep)} (hr : r.lastError = some (truncate err.text 1000))
    (hquiet : publishErr ⟨r, x⟩ = none) (h : Recorded events) :
    Recorded (⟨.send id msg, some err⟩ :: ⟨r, x⟩ :: events) := by
  have hsend : publishErr ⟨.send id msg, some err⟩ = some err := rfl
  have hnone : (Req.send id msg).lastError = none := rfl
  unfold Recorded written failures at *
  simp only [filterMap_cons, hnone, hr, hsend, hquiet, map_cons, h]

variable {r : Relay} {events : List (Reply Req Rep)}

theorem recorded_ret {α : Type} {a b : α} (h : (ret a : Pass α).Runs events b) :
    Recorded events := by
  obtain ⟨rfl, -⟩ := runs_ret.mp h
  rfl

theorem publishBatch_recorded {batch : List Pending} {acc out : Progress}
    (h : (r.publishBatch batch acc).Runs events out) : Recorded events := by
  induction batch generalizing acc events with
  | nil => exact recorded_ret h
  | cons x batch ih =>
    unfold Relay.publishBatch at h
    obtain ⟨cancelled, events, rfl, hrun⟩ := runs_request_bind.mp h
    refine Recorded.cons rfl rfl ?_
    cases cancelled with
    | true => exact recorded_ret hrun
    | false =>
      rw [if_neg Bool.false_ne_true] at hrun
      obtain ⟨result, events, rfl, hsent⟩ := runs_request_bind.mp hrun
      cases result with
      | none => exact Recorded.cons rfl rfl (ih hsent)
      | some err =>
        simp only at hsent
        split_ifs at hsent with hrejected
        · obtain ⟨rep, events, rfl, hrest⟩ := runs_request_bind.mp hsent
          refine Recorded.error rfl rfl ?_
          cases rep with
          | error uerr => exact recorded_ret hrest
          | ok n => exact ih hrest
        · obtain ⟨rep, events, rfl, hrest⟩ := runs_request_bind.mp hsent
          refine Recorded.error rfl rfl ?_
          cases rep with
          | none => exact recorded_ret hrest
          | some uerr => exact recorded_ret hrest

/-- The end of `finish`, with the published rows deleted. -/
def Progress.commit (acc : Progress) : Pass Outcome := do
  match ← ask .commit with
  | some err => pure (0, 0, Err.join (acc.pubErr.toList ++ [.wrap "outbox: commit: " err]))
  | none => pure (acc.done.length, acc.taken, acc.pubErr)

theorem commit_recorded {acc : Progress} {out : Outcome} (h : acc.commit.Runs events out) :
    Recorded events := by
  obtain ⟨rep, events, rfl, hrest⟩ := runs_request_bind.mp h
  refine Recorded.cons rfl rfl ?_
  cases rep with
  | none => exact recorded_ret hrest
  | some err => exact recorded_ret hrest

theorem finish_recorded {acc : Progress} {out : Outcome} (h : acc.finish.Runs events out) :
    Recorded events := by
  unfold Progress.finish at h
  split_ifs at h with hdone
  · exact commit_recorded h
  · obtain ⟨deleted, events, rfl, hrest⟩ := runs_request_bind.mp h
    refine Recorded.cons rfl rfl ?_
    cases deleted with
    | none => exact commit_recorded hrest
    | some err => exact recorded_ret hrest

theorem inTx_recorded {out : Outcome} (h : r.inTx.Runs events out) : Recorded events := by
  unfold Relay.inTx at h
  obtain ⟨locked, events, rfl, hlocked⟩ := runs_request_bind.mp h
  refine Recorded.cons rfl rfl ?_
  match locked, hlocked with
  | .error err, hlocked => exact recorded_ret hlocked
  | .ok false, hlocked => exact recorded_ret hlocked
  | .ok true, hlocked =>
    obtain ⟨selected, events, rfl, hselected⟩ := runs_request_bind.mp hlocked
    refine Recorded.cons rfl rfl ?_
    cases selected with
    | failed err => exact recorded_ret hselected
    | unreadable err => exact recorded_ret hselected
    | rows batch =>
      simp only at hselected
      split_ifs at hselected with hempty
      · exact recorded_ret hselected
      · obtain ⟨before, acc, after, rfl, hbatch, hfinish⟩ := runs_bind.mp hselected
        exact (publishBatch_recorded hbatch).append (finish_recorded hfinish)

/-- Whatever the database and the broker answer, a pass records the errors of the broker and
nothing else. -/
theorem relayOnce_recorded {out : Outcome} (h : r.relayOnce.Runs events out) :
    Recorded events := by
  unfold Relay.relayOnce at h
  split_ifs at h with hpublisher
  · obtain ⟨begun, events, rfl, hbegun⟩ := runs_request_bind.mp h
    refine Recorded.cons rfl rfl ?_
    cases begun with
    | some err => exact recorded_ret hbegun
    | none =>
      obtain ⟨before, result, after, rfl, htx, hrollback⟩ := runs_bind.mp hbegun
      refine (inTx_recorded htx).append ?_
      obtain ⟨rep, events, rfl, hrest⟩ := runs_request_bind.mp hrollback
      exact Recorded.cons rfl rfl (recorded_ret hrest)
  · exact recorded_ret h

/-- `last_error` can be stored, and is the text itself where that can be stored as it is. -/
structure KeptText (text : Bytes) : Prop where
  storable : Storable (truncate text 1000)
  short : (truncate text 1000).length ≤ 1000
  same : Storable text → text.length ≤ 1000 → truncate text 1000 = text

theorem kept_iff (text : Bytes) : KeptText text ↔ Recordable text := by
  rw [← storable_truncate_iff]
  constructor
  · exact KeptText.storable
  · intro h
    exact ⟨h, length_truncate_le text 1000, fun _ => truncate_of_le⟩

theorem Recorded.storable_iff (h : Recorded events) :
    (∀ text ∈ written events, Storable text) ↔
      ∀ err ∈ failures events, Recordable err.text := by
  rw [h, forall_mem_map]
  simp only [storable_truncate_iff]

def Honest (events : List (Reply Req Rep)) : Prop :=
  ∀ e ∈ events, ∀ text ∈ e.1.lastError, refused e = true ↔ ¬ Storable text

theorem refused_writes {e : Reply Req Rep} (h : refused e = true) :
    ∃ text, text ∈ e.1.lastError := by
  unfold refused at h
  split at h
  · exact ⟨_, rfl⟩
  · exact ⟨_, rfl⟩
  · cases h

theorem Honest.refused_iff (h : Honest events) :
    (∀ e ∈ events, refused e = false) ↔ ∀ text ∈ written events, Storable text := by
  constructor
  · intro hnone text htext
    obtain ⟨e, he, hwrites⟩ := mem_filterMap.mp htext
    by_contra hstorable
    have hrefused := (h e he text hwrites).mpr hstorable
    rw [hnone e he] at hrefused
    cases hrefused
  · intro hall e he
    by_contra hrefused
    rw [Bool.not_eq_false] at hrefused
    obtain ⟨text, htext⟩ := refused_writes hrefused
    exact (h e he text htext).mp hrefused (hall text (mem_filterMap.mpr ⟨e, he, htext⟩))

/-- A text is kept if no NUL byte is among its first 1000 bytes and it is valid UTF-8 unless it
is longer. A pass writes what is kept of the broker's errors, so a database that refuses what it
cannot store lets the pass through exactly when they are all of that kind. -/
theorem lastError_kept_iff (text : Bytes) (r : Relay) (events : List (Reply Req Rep))
    (out : Outcome) (h : r.relayOnce.Runs events out) :
    (KeptText text ↔ Recordable text) ∧
    written events = (failures events).map (fun err => truncate err.text 1000) ∧
    ((∀ text ∈ written events, Storable text) ↔ ∀ err ∈ failures events, Recordable err.text) ∧
    (Honest events → ((∀ e ∈ events, refused e = false) ↔
      ∀ err ∈ failures events, Recordable err.text)) := by
  have hrecorded := relayOnce_recorded h
  refine ⟨kept_iff text, hrecorded, hrecorded.storable_iff, fun hhonest => ?_⟩
  rw [hhonest.refused_iff, hrecorded.storable_iff]

/-- A broker that is down, and what a pass over one row asks then. -/
def brokerDown : Err := newSendError .unavailable 7 (.new (utf8 "broker down"))

def oneRow : Pending := ⟨1, "e1", "t1", .created, [], []⟩

def outage : List (Reply Req Rep) :=
  [⟨.beginTx, none⟩, ⟨.tryLock, .ok true⟩, ⟨.selectBatch 100 10, .rows [oneRow]⟩,
    ⟨.ctxErr, false⟩,
    ⟨.send 1 ((newRelay true ⟨"tasks.events", 0, 0, 0⟩).message oneRow), some brokerDown⟩,
    ⟨.recordFailure 1 brokerDown.text, none⟩, ⟨.commit, none⟩, ⟨.rollback, none⟩]

theorem lastError_kept_outage :
    ∃ out, (newRelay true ⟨"tasks.events", 0, 0, 0⟩).relayOnce.Runs outage out ∧ Honest outage ∧
      (KeptText brokerDown.text ↔ Recordable brokerDown.text) ∧ written outage = [brokerDown.text] ∧
      ((∀ e ∈ outage, refused e = false) ↔
        ∀ err ∈ failures outage, Recordable err.text) := by
  have hruns : (newRelay true ⟨"tasks.events", 0, 0, 0⟩).relayOnce.Runs outage
      (0, 0, some (.wrap "outbox: publish task.created t1 (event e1): " brokerDown)) := by
    exact .ask _ (.ask _ (.ask _ (.ask _ (.ask _ (.ask _ (.ask _ (.ask _ (.ret _))))))))
  have hhonest : Honest outage := by
    intro e he text htext
    simp only [outage, mem_cons, not_mem_nil, or_false] at he
    obtain rfl | rfl | rfl | rfl | rfl | rfl | rfl | rfl := he
    all_goals cases htext
    decide +kernel
  obtain ⟨hkept, hwritten, -, hrefused⟩ := lastError_kept_iff brokerDown.text _ _ _ hruns
  exact ⟨_, hruns, hhonest, hkept, hwritten, hrefused hhonest⟩

def Choice.aborts : Choice → Bool
  | .fail _ aborts => aborts
  | _ => false

def refusing (orderly : Bool) : Machine Nat Req Rep State Choice Env (Bool × Config) Outcome where
  serve p r x s :=
    if r.lastError.all (fun text => decide (Storable text)) || x.aborts then serve orderly p r x s
    else none
  env := env orderly
  accept := (passes orderly).accept
  code := (passes orderly).code

/-- A pass publishes row 1, gets an error for row 2 that is no UTF-8 and cannot record it; with
its transaction it loses the deletion of row 1. -/
def poisoned (p : Nat) : List (Conc.Event Nat Choice Env (Bool × Config)) :=
  [.start p (true, ⟨"tasks.events", 0, 0, 10 ^ 9⟩), .step p .ok, .step p .ok,
    .step p (.rows []), .step p (.cancelled false), .step p (.sent none),
    .step p (.cancelled false), .step p (.sent (some (newSendError .unavailable 7 (.new [0xFF])))),
    .step p (.fail (.new (utf8 "invalid byte sequence for encoding \"UTF8\"")) true),
    .step p (.fail (.new (utf8 "current transaction is aborted")) true), .step p .ok]

/-- Pass after pass publishes row 1 again, and both rows stay. -/
theorem poisoned_republishes :
    ¬ Storable (truncate (newSendError .unavailable 7 (.new [0xFF])).text 1000) ∧
    ((refusing false).run ⟨State.init, fun _ => none⟩
      ([.env (.enqueue ⟨1, "e1", "t1", .created, [], []⟩),
        .env (.enqueue ⟨2, "e2", "t2", .created, [], []⟩)] ++ poisoned 0 ++ poisoned 1)).map
        (fun c => (c.shared.log.map fun x => (x.pass, x.row, x.acked),
          c.shared.db.tables.map fun r => (r.id, r.lastError))) =
      some ([(1, 2, false), (1, 1, true), (0, 2, false), (0, 1, true)],
        [(1, none), (2, none)]) := by
  decide +kernel

end GolangBasics.Tasks.Outbox
