import GolangBasics.Json
import GolangBasics.Kafka.Types
import GolangBasics.Worker.Lru

/-! The worker applies task events, each event id once as long as it remembers it. -/
namespace GolangBasics.Worker
open Recency

inductive EventType where
  | taskCreated | taskUpdated | taskDeleted
  deriving DecidableEq, Repr

def EventType.text : EventType → String
  | taskCreated => "task.created"
  | taskUpdated => "task.updated"
  | taskDeleted => "task.deleted"

def EventType.ofText (s : Bytes) : Option EventType :=
  [taskCreated, taskUpdated, taskDeleted].find? fun t => utf8 t.text = s

structure TaskEvent where
  eventID : Bytes
  eventType : Bytes

/-- `json.Unmarshal` into a `taskEvent`. The other fields only have to be of their types. -/
def decodeEvent (value : Bytes) : Option TaskEvent := do
  let members ← (← Json.parse value).members
  let eventID ← Json.stringField "event_id" members
  let eventType ← Json.stringField "event_type" members
  let _ ← Json.stringField "id" members
  let _ ← Json.stringField "task_id" members
  if members.all task then some ⟨Json.unquote eventID, Json.unquote eventType⟩ else none
where
  task (m : List Json.Piece × Json.Value) : Bool :=
    Json.foldName (Json.unquote m.1) ≠ utf8 "task" || match m.2 with
      | .object members => (Json.stringField "id" members).isSome
      | .null => true
      | _ => false

def truncate (s : Bytes) (n : Nat) : Bytes := if s.length ≤ n then s else s.take n

/-- What becomes of a message, with what its error and its log line name. -/
inductive Outcome where
  | undecodable (value : Bytes)
  | unknownType (shown : Bytes)
  | duplicate (eventType : EventType) (eventID : Bytes)
  | failed (err : Err)
  | applied (eventType : EventType) (eventID : Bytes)
  deriving DecidableEq

structure Texts where
  /-- Why `json.Unmarshal` refuses the value. -/
  syntaxError : Bytes → Err
  /-- `%q`. -/
  quote : Bytes → Bytes

def Outcome.error (texts : Texts) : Outcome → Option Err
  | undecodable value => some (.permanent (.wrap
      ("decode task event (" ++ toString value.length ++ " bytes): ") (texts.syntaxError value)))
  | unknownType shown => some (.permanent (.new (utf8 "unknown event type " ++ texts.quote shown)))
  | failed err => some err
  | duplicate .. | applied .. => none

/-- The first half of `Handle`: the type and the id of the event, headers before payload. -/
def identify (msg : Kafka.Message) : Except Outcome (EventType × Bytes) :=
  match decodeEvent msg.value with
  | none => .error (.undecodable msg.value)
  | some evt =>
    let eventType := (msg.header "event_type").getD evt.eventType
    let eventType := if eventType = [] then utf8 EventType.taskCreated.text else eventType
    match EventType.ofText eventType with
    | none => .error (.unknownType (truncate eventType 64))
    | some t =>
      match msg.header "event_id" with
      | some (b :: h) => .ok (t, b :: h)
      | _ => .ok (t, evt.eventID)

/-- A call of `Handle`, with what the injected step returns if it is run. -/
structure Delivery where
  msg : Kafka.Message
  injected : Option Err

def handle (seen : Lru) (d : Delivery) : Outcome × Lru :=
  match identify d.msg with
  | .error outcome => (outcome, seen)
  | .ok (eventType, eventID) =>
    let (found, seen) := if eventID = [] then (false, seen) else seen.contains eventID
    if found then (.duplicate eventType eventID, seen)
    else
      match d.injected with
      | some err => (.failed err, seen)
      | none => (.applied eventType eventID, if eventID = [] then seen else seen.add eventID)

def dedupeSize (n : Int) : Nat := if n ≤ 0 then 10000 else n.toNat

/-- A worker with the outcomes of its calls so far, newest first. -/
structure Course where
  seen : Lru
  outcomes : List Outcome

def Course.handle (c : Course) (d : Delivery) : Course :=
  ⟨(Worker.handle c.seen d).2, (Worker.handle c.seen d).1 :: c.outcomes⟩

def Course.handleAll (c : Course) (ds : List Delivery) : Course := ds.foldl Course.handle c

def run (dedupe : Int) (ds : List Delivery) : Course :=
  Course.handleAll ⟨Lru.newLRU (dedupeSize dedupe), []⟩ ds

def Outcome.mark : Outcome → Option Bytes
  | duplicate _ id => some id
  | applied _ id => if id = [] then none else some id
  | _ => none

def Course.marks (c : Course) : List Bytes := c.outcomes.filterMap Outcome.mark

variable {seen : Lru} {d : Delivery} {t : EventType} {id : Bytes}

inductive Handles (seen : Lru) (d : Delivery) : Outcome → Lru → Prop where
  | rejected {outcome : Outcome} (hid : identify d.msg = .error outcome) :
      Handles seen d outcome seen
  | duplicate {t : EventType} {id : Bytes} {seen' : Lru} (hid : identify d.msg = .ok (t, id))
      (hne : id ≠ []) (hin : id ∈ seen.ids) (hsize : seen'.size = seen.size)
      (hids : seen'.ids = touch seen.size seen.ids id) : Handles seen d (.duplicate t id) seen'
  | failed {t : EventType} {id : Bytes} {err : Err} (hid : identify d.msg = .ok (t, id))
      (hnew : id = [] ∨ id ∉ seen.ids) (hinjected : d.injected = some err) : Handles seen d (.failed err) seen
  | anonymous {t : EventType} (hid : identify d.msg = .ok (t, [])) (hinjected : d.injected = none) :
      Handles seen d (.applied t []) seen
  | applied {t : EventType} {id : Bytes} {seen' : Lru} (hid : identify d.msg = .ok (t, id)) (hne : id ≠ [])
      (hnew : id ∉ seen.ids) (hinjected : d.injected = none) (hsize : seen'.size = seen.size)
      (hids : seen'.ids = touch seen.size seen.ids id) : Handles seen d (.applied t id) seen'

theorem identify_error {msg : Kafka.Message} {outcome : Outcome}
    (h : identify msg = .error outcome) :
    (∃ value, outcome = .undecodable value) ∨ ∃ shown, outcome = .unknownType shown := by
  unfold identify at h
  split at h
  · cases h
    exact .inl ⟨_, rfl⟩
  · simp only at h
    split at h
    · cases h
      exact .inr ⟨_, rfl⟩
    · split at h <;> cases h

theorem contains_of_not_mem (h : id ∉ seen.ids) : seen.contains id = (false, seen) := by
  have hfields : seen.toFields.contains id = (false, seen.toFields) := by
    unfold Fields.contains
    rw [seen.wf.items_none.mpr h]
  cases seen
  simp only [Lru.contains, hfields]

theorem handles (seen : Lru) (d : Delivery) :
    Handles seen d (handle seen d).1 (handle seen d).2 := by
  unfold handle
  cases hid : identify d.msg with
  | error outcome => exact .rejected hid
  | ok event =>
    obtain ⟨t, id⟩ := event
    simp only
    by_cases hempty : id = []
    · subst hempty
      cases hinjected : d.injected with
      | some err => exact .failed hid (.inl rfl) hinjected
      | none => exact .anonymous hid hinjected
    · simp only [if_neg hempty]
      obtain ⟨-, hfound, hsize, hids⟩ := seen.wf.contains id
      by_cases hin : id ∈ seen.ids
      · have hfound : (seen.contains id).1 = true := by
          rw [decide_eq_true hin] at hfound
          exact hfound
        rw [if_pos hin] at hids
        rw [if_pos hfound]
        exact .duplicate hid hempty hin hsize hids
      · rw [contains_of_not_mem hin]
        cases hinjected : d.injected with
        | some err => exact .failed hid (.inr hin) hinjected
        | none =>
          obtain ⟨-, hsize, hids⟩ := seen.wf.add id
          exact .applied hid hempty hin hinjected hsize hids

theorem Handles.ids {outcome : Outcome} {seen' : Lru} (h : Handles seen d outcome seen') :
    seen'.size = seen.size ∧ seen'.ids =
      match outcome.mark with
      | some id => touch seen.size seen.ids id
      | none => seen.ids := by
  cases h with
  | rejected hid =>
    rcases identify_error hid with ⟨value, rfl⟩ | ⟨shown, rfl⟩
    · exact ⟨rfl, rfl⟩
    · exact ⟨rfl, rfl⟩
  | duplicate _ _ _ hsize hids => exact ⟨hsize, hids⟩
  | failed => exact ⟨rfl, rfl⟩
  | anonymous => exact ⟨rfl, rfl⟩
  | @applied t id _ _ hne _ _ hsize hids =>
    have hmark : (Outcome.applied t id).mark = some id := if_neg hne
    rw [hmark]
    exact ⟨hsize, hids⟩

/-- The set holds the most recently marked ids. -/
theorem ids_handleAll {c : Course} (ds : List Delivery)
    (h : c.seen.ids = (recent c.marks).take c.seen.size) :
    (c.handleAll ds).seen.size = c.seen.size ∧
      (c.handleAll ds).seen.ids = (recent (c.handleAll ds).marks).take c.seen.size := by
  induction ds generalizing c with
  | nil => exact ⟨rfl, h⟩
  | cons d ds ih =>
    obtain ⟨hsize, hids⟩ := (handles c.seen d).ids
    have hsize : (c.handle d).seen.size = c.seen.size := hsize
    have hstep : (c.handle d).seen.ids = (recent (c.handle d).marks).take c.seen.size := by
      have hmarks : (c.handle d).marks =
          ((handle c.seen d).1.mark.toList ++ c.marks : List Bytes) := by
        unfold Course.marks Course.handle
        cases hmark : (handle c.seen d).1.mark <;> simp [hmark]
      rw [hmarks]
      have hids : (c.handle d).seen.ids = _ := hids
      rw [hids]
      cases (handle c.seen d).1.mark with
      | none => exact h
      | some id =>
        dsimp only
        rw [h]
        exact (take_recent_cons c.seen.size id c.marks).symm
    rw [← hsize] at hstep
    obtain ⟨hsize', hids'⟩ := ih hstep
    rw [hsize] at hsize' hids'
    exact ⟨hsize', hids'⟩

theorem ids_run (dedupe : Int) (ds : List Delivery) :
    (run dedupe ds).seen.size = dedupeSize dedupe ∧
      (run dedupe ds).seen.ids = (recent (run dedupe ds).marks).take (dedupeSize dedupe) :=
  ids_handleAll (c := ⟨Lru.newLRU (dedupeSize dedupe), []⟩) ds
    (by simp [Lru.newLRU, Fields.ids, Course.marks, recent])

theorem Handles.mem_ids {outcome : Outcome} {seen' : Lru} (h : Handles seen d outcome seen')
    (hid : id ∈ seen'.ids) : id ∈ seen.ids ∨ ∃ t, outcome = .applied t id := by
  cases h with
  | duplicate _ _ hin _ hids =>
    rw [hids] at hid
    rcases mem_of_mem_touch hid with rfl | hold
    · exact .inl hin
    · exact .inl hold
  | applied _ _ _ _ _ hids =>
    rw [hids] at hid
    rcases mem_of_mem_touch hid with rfl | hold
    · exact .inr ⟨_, rfl⟩
    · exact .inl hold
  | _ => exact .inl hid

theorem outcomes_subset (c : Course) (ds : List Delivery) :
    c.outcomes ⊆ (c.handleAll ds).outcomes := by
  induction ds generalizing c with
  | nil => exact List.Subset.refl _
  | cons d ds ih => exact List.Subset.trans (List.subset_cons_self _ _) (ih (c.handle d))

theorem mem_handleAll {c : Course} (ds : List Delivery)
    (hid : id ∈ (c.handleAll ds).seen.ids) :
    id ∈ c.seen.ids ∨ ∃ t, .applied t id ∈ (c.handleAll ds).outcomes := by
  induction ds generalizing c with
  | nil => exact .inl hid
  | cons d ds ih =>
    rcases ih (c := c.handle d) hid with hmem | happlied
    · refine ((handles c.seen d).mem_ids hmem).imp_right fun ⟨t, ht⟩ => ⟨t, ?_⟩
      refine outcomes_subset (c.handle d) ds ?_
      unfold Course.handle
      rw [ht]
      exact List.mem_cons_self
    · exact .inr happlied

/-- A message that identifies itself is applied if its id is not remembered and the injected
step lets it pass. -/
theorem handle_applies (hid : identify d.msg = .ok (t, id)) (hinjected : d.injected = none)
    (hnew : id = [] ∨ id ∉ seen.ids) : (handle seen d).1 = .applied t id := by
  have h := handles seen d
  generalize (handle seen d).1 = outcome at h ⊢
  generalize (handle seen d).2 = seen' at h
  cases h with
  | rejected hid' => simp [hid] at hid'
  | duplicate hid' hne hin =>
    obtain ⟨rfl, rfl⟩ : t = _ ∧ id = _ := by simpa [hid] using hid'
    rcases hnew with hempty | hnot
    · exact absurd hempty hne
    · exact absurd hin hnot
  | failed _ _ hinjected' => simp [hinjected] at hinjected'
  | anonymous hid' | applied hid' =>
    obtain ⟨rfl, rfl⟩ : t = _ ∧ id = _ := by simpa [hid] using hid'
    rfl

/-- The worker remembers at most `DedupeSize` ids, the same in the list and in the map. An id
is recognised only if it was applied, and applied again only if at least as many other ids were
marked since its last mark. An error leaves the set alone, so that the retry of the message is
applied unless the id has been by then. A message without an id is always applied. -/
theorem worker_dedupes (dedupe : Int) (ds : List Delivery) :
    (run dedupe ds).seen.order.length ≤ dedupeSize dedupe ∧ (run dedupe ds).seen.ids.Nodup ∧
    (∀ id, ((run dedupe ds).seen.items id).isSome ↔ id ∈ (run dedupe ds).seen.ids) ∧
    ∀ d,
      (∀ t id, (handle (run dedupe ds).seen d).1 = .applied t id → id ≠ [] → ∀ since before,
        (run dedupe ds).marks = since ++ id :: before → id ∉ since →
          dedupeSize dedupe ≤ since.toFinset.card) ∧
      (∀ t id, (handle (run dedupe ds).seen d).1 = .duplicate t id →
        id ≠ [] ∧ ∃ t', .applied t' id ∈ (run dedupe ds).outcomes) ∧
      (∀ texts err, (handle (run dedupe ds).seen d).1.error texts = some err →
        (handle (run dedupe ds).seen d).2 = (run dedupe ds).seen ∧
        ∀ t id, identify d.msg = .ok (t, id) → ∀ ds',
          (∀ t', .applied t' id ∉ (Course.handleAll ⟨(run dedupe ds).seen, []⟩ ds').outcomes) →
          (handle (Course.handleAll ⟨(run dedupe ds).seen, []⟩ ds').seen ⟨d.msg, none⟩).1 =
            .applied t id) ∧
      (∀ t, identify d.msg = .ok (t, []) → d.injected = none →
        (handle (run dedupe ds).seen d).1 = .applied t []) := by
  obtain ⟨hsize, hids⟩ := ids_run dedupe ds
  have happlied : ∀ id ∈ (run dedupe ds).seen.ids,
      ∃ t, .applied t id ∈ (run dedupe ds).outcomes := by
    intro id hid
    rcases mem_handleAll ds hid with hmem | happlied
    · simp [Lru.newLRU, Fields.ids] at hmem
    · exact happlied
  have hwf := (run dedupe ds).seen.wf
  generalize run dedupe ds = c at hsize hids happlied hwf ⊢
  refine ⟨hsize ▸ hwf.bounded, hwf.distinct, fun id => ?_, fun d => ?_⟩
  · rw [← Option.ne_none_iff_isSome, Ne, hwf.items_none, not_not]
  have h := handles c.seen d
  refine ⟨fun t id ho hne since before hmarks hsince => ?_, fun t id ho => ?_,
    fun texts err ho => ?_, fun t hid hinjected => handle_applies hid hinjected (.inl rfl)⟩
  · rw [ho] at h
    generalize (handle c.seen d).2 = seen' at h
    cases h with
    | rejected hid => rcases identify_error hid with ⟨_, h⟩ | ⟨_, h⟩ <;> cases h
    | anonymous => exact absurd rfl hne
    | applied _ _ hnew =>
      rw [hids, hmarks, mem_take_recent hsince] at hnew
      exact not_lt.mp hnew
  · rw [ho] at h
    generalize (handle c.seen d).2 = seen' at h
    cases h with
    | rejected hid => rcases identify_error hid with ⟨_, h⟩ | ⟨_, h⟩ <;> cases h
    | duplicate _ hne hin => exact ⟨hne, happlied id hin⟩
  · generalize (handle c.seen d).1 = outcome at h ho
    generalize (handle c.seen d).2 = seen' at h ⊢
    cases h with
    | rejected hid =>
      refine ⟨rfl, fun t id hid' => ?_⟩
      simp [hid] at hid'
    | failed hid hnew =>
      refine ⟨rfl, fun t id hid' ds' hnever => handle_applies hid' rfl ?_⟩
      obtain ⟨rfl, rfl⟩ : t = _ ∧ id = _ := by simpa [hid'] using hid
      refine hnew.imp_right fun hnot hin => ?_
      rcases mem_handleAll ds' hin with hmem | ⟨t', happlied⟩
      · exact hnot hmem
      · exact hnever t' happlied
    | duplicate => cases ho
    | anonymous => cases ho
    | applied => cases ho

/-- The id `e1`, then two others, with room for two. -/
example :
    let event (id : String) : Delivery :=
      ⟨⟨"tasks.events", [], utf8 "\x7b\x7d", 0, 0, [⟨"event_id", utf8 id⟩], 0, 1⟩, none⟩
    (run 2 [event "e1", event "e1", event "e2", event "e3", event "e1"]).outcomes.reverse =
      [.applied .taskCreated (utf8 "e1"), .duplicate .taskCreated (utf8 "e1"),
        .applied .taskCreated (utf8 "e2"), .applied .taskCreated (utf8 "e3"),
        .applied .taskCreated (utf8 "e1")] := by decide +kernel

end GolangBasics.Worker
