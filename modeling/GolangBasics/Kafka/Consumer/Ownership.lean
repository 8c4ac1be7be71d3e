import GolangBasics.Kafka.Consumer.History

/-! Offsets never cross an ownership change: what `Commit` is called with, over every
sequence of group callbacks, processed records and commits. -/
namespace GolangBasics.Kafka.Consumer
open List

/-- Offsets of `p` marked as processed among the events, newest first. -/
def marks (p : TopicPartition) (events : List Event) : List Int :=
  events.filterMap fun
    | .marked tp offset => if tp = p then some offset else none
    | _ => none

def marksIn (p : TopicPartition) (log : List Event) : List Int := marks p (period p log)

/-- What changes the offsets: a group callback, a record the loop has finished, and the
commit after a batch. Callbacks run only inside `Poll` or `Close`, so a record is marked
in the state its ownership was checked in. -/
inductive Op where
  | rebalance (event : Rebalance) (ok : Bool)
  | record (r : Message)
  | commit (ok : Bool)

def apply (c : State) : Op → State
  | .rebalance event ok => onRebalance c ok event
  | .record r => if owns c r then markDone c r else c
  | .commit ok => commitPending c ok

/-- Every history in which the records of a partition come in increasing offset order
while it stays assigned. -/
inductive Reachable : State → Prop where
  | new : Reachable State.new
  | step {c : State} (op : Op) (hc : Reachable c)
      (hop : ∀ r, op = .record r → ∀ off ∈ marksIn r.tp c.log, off < r.offset) :
      Reachable (apply c op)

variable {p : TopicPartition}

theorem marks_cons {e : Event} (he : ∀ off, e ≠ .marked p off) (events : List Event) :
    marks p (e :: events) = marks p events := by
  cases e with
  | marked tp off =>
    have : tp ≠ p := fun h => he off (by rw [h])
    simp [marks, this]
  | _ => rfl

theorem marks_append (p : TopicPartition) (xs ys : List Event) :
    marks p (xs ++ ys) = marks p xs ++ marks p ys :=
  filterMap_append

theorem mem_marks {off : Int} {events : List Event} :
    off ∈ marks p events ↔ .marked p off ∈ events := by
  constructor
  · intro h
    obtain ⟨e, he, h⟩ := mem_filterMap.mp h
    cases e with
    | marked tp off' =>
      simp only [Option.ite_none_right_eq_some, Option.some.injEq] at h
      obtain ⟨rfl, rfl⟩ := h
      exact he
    | _ => simp at h
  · intro h
    exact mem_filterMap.mpr ⟨_, h, by simp⟩

theorem passive_ne_marked {e : Event} (he : e.passive) (p : TopicPartition) (off : Int) :
    e ≠ .marked p off := by
  rintro rfl
  simp [Event.passive] at he

/-- The offset is the last one marked, and the largest. -/
def Latest (p : TopicPartition) (off : Int) (events : List Event) : Prop :=
  (marks p events).head? = some off ∧ (marks p events).Pairwise (· > ·)

theorem latest_passive (p : TopicPartition) (off : Int) (events : List Event) (e : Event)
    (he : e.passive) (h : Latest p off events) : Latest p off (e :: events) := by
  rw [Latest, marks_cons (passive_ne_marked he p)]
  exact h

/-- Pending offsets are the last ones marked, and marks grow within a period. -/
structure Inv (c : State) : Prop where
  tracks : Tracks Latest c
  sorted : ∀ p, (marksIn p c.log).Pairwise (· > ·)

theorem sorted_passive {new log : List Event} (hnew : ∀ e ∈ new, e.passive)
    (h : (marksIn p log).Pairwise (· > ·)) : (marksIn p (new ++ log)).Pairwise (· > ·) := by
  induction new with
  | nil => exact h
  | cons e new ih =>
    rw [marksIn, cons_append]
    rcases period_cons_cases p e (new ++ log) with ⟨hp, -⟩ | ⟨hp, -⟩
    · rw [hp, marks_cons (passive_ne_marked (hnew e mem_cons_self) p)]
      exact ih fun e he => hnew e (mem_cons_of_mem _ he)
    · simp [hp, marks]

theorem inv_markDone {c : State} (hc : Inv c) {r : Message} (ho : owns c r)
    (hr : ∀ off ∈ marksIn r.tp c.log, off < r.offset) : Inv (markDone c r) := by
  have hown : r.tp ∈ c.owned := by simpa [owns] using ho
  have hlatest : Latest r.tp r.offset (.marked r.tp r.offset :: period r.tp c.log) := by
    have hm : marks r.tp (.marked r.tp r.offset :: period r.tp c.log) =
        r.offset :: marksIn r.tp c.log := by simp [marks, marksIn]
    rw [Latest, hm]
    exact ⟨rfl, pairwise_cons.mpr ⟨hr, hc.sorted _⟩⟩
  have hne : ∀ p, p ≠ r.tp → ∀ off, Event.marked r.tp r.offset ≠ .marked p off := by
    rintro p hp off ⟨⟩
    exact hp rfl
  constructor
  · refine tracks_cons hc.tracks (fun p => ?_) (fun p off h => ?_) (by simp)
    · rw [ownedIn_cons rfl]
      exact hc.tracks.owned p
    · by_cases hp : p = r.tp
      · subst hp
        obtain rfl : r.offset = off := by simpa using h
        exact ⟨hown, hlatest⟩
      · rw [AList.lookup_insert_ne hp] at h
        obtain ⟨ho, hl⟩ := hc.tracks.pending p off h
        refine ⟨ho, ?_⟩
        rw [Latest, marks_cons (hne p hp)]
        exact hl
  · intro p
    rw [marksIn, markDone]
    rcases period_cons_cases p (.marked r.tp r.offset) c.log with ⟨hp, -⟩ | ⟨hp, -⟩
    · rw [hp]
      by_cases h : p = r.tp
      · subst h
        exact hlatest.2
      · rw [marks_cons (hne p h)]
        exact hc.sorted p
    · simp [hp, marks]

theorem inv_of_reachable {c : State} (h : Reachable c) : Inv c := by
  induction h with
  | new => exact ⟨tracks_new, fun p => by simp [State.new, marksIn, period, marks]⟩
  | step op _ hop ih =>
    cases op with
    | rebalance event ok =>
      refine ⟨tracks_onRebalance latest_passive ih.tracks ok event, fun p => ?_⟩
      obtain ⟨new, hlog, hnew⟩ := onRebalance_passive _ ok event
      rw [apply, hlog]
      exact sorted_passive hnew (ih.sorted p)
    | record r =>
      simp only [apply]
      split_ifs with ho
      · exact inv_markDone ih ho (hop r rfl)
      · exact ih
    | commit ok =>
      refine ⟨tracks_commitLocked latest_passive ih.tracks none ok, fun p => ?_⟩
      obtain ⟨new, hlog, hnew⟩ := commitLocked_passive _ none ok
      rw [apply, commitPending, hlog]
      exact sorted_passive hnew (ih.sorted p)

/-- Within a period the last mark is the largest, so earlier commits were not for more. -/
theorem commit_le_of_latest {log : List Event} {off : Int}
    (hcommits : ∀ post offsets ok pre, log = post ++ .commit offsets ok :: pre →
      ∀ o ∈ offsets, ownedIn o.tp pre ∧ Latest o.tp (o.next - 1) (period o.tp pre))
    (hoff : Latest p off (period p log)) {offsets : List Offset} {ok : Bool}
    (hmem : .commit offsets ok ∈ period p log) {o : Offset} (ho : o ∈ offsets) (htp : o.tp = p) :
    o.next - 1 ≤ off := by
  subst htp
  obtain ⟨post, pre, hlog, hperiod⟩ := period_split hmem
  have hthen : o.next - 1 ∈ marks o.tp (period o.tp pre) :=
    List.mem_of_mem_head? (hcommits post offsets ok pre hlog o ho).2.1
  have hnow : o.next - 1 ∈ marks o.tp (period o.tp log) := by
    rw [hperiod, marks_append, marks_cons (by simp)]
    exact mem_append_right _ hthen
  obtain ⟨hhead, hsorted⟩ := hoff
  obtain ⟨rest, hrest⟩ := List.head?_eq_some_iff.mp hhead
  rw [hrest] at hnow hsorted
  rcases mem_cons.mp hnow with h | h
  · omega
  · have := (pairwise_cons.mp hsorted).1 _ h
    omega

/-- A callback keeps the pending offset of a partition it does not name, unless it was a
revoke of "all partitions" (a nil slice) that committed the offset itself. -/
theorem onRebalance_keeps {c : State} (hc : Inv c) (ok : Bool) (event : Rebalance) {off : Int}
    (hoff : c.pending.lookup p = some off) (hp : p ∉ event.parts.getD []) :
    (onRebalance c ok event).pending.lookup p = some off ∨
      ok = true ∧ ∃ offsets, ⟨p, off + 1⟩ ∈ offsets ∧
        (onRebalance c ok event).log = .revoked [] :: .commit offsets ok :: c.log := by
  have ho := (hc.tracks.pending p off hoff).1
  cases event with
  | assigned parts => exact .inl hoff
  | lost parts =>
    left
    simpa [onRebalance, onLost, forgetLocked, Rebalance.parts] using ⟨hp, hoff⟩
  | revoked parts =>
    have hp : p ∉ parts.getD [] := hp
    by_cases h : ok = true ∧ included parts p = true
    · right
      cases parts with
      | some parts => simp_all [included]
      | none =>
        have hmem : (⟨p, off + 1⟩ : Offset) ∈ commitOffsets c none :=
          mem_commitOffsets.mpr ⟨by simpa using hoff, ho, rfl⟩
        refine ⟨h.1, commitOffsets c none, hmem, ?_⟩
        have hne : commitOffsets c none ≠ [] := ne_nil_of_mem hmem
        simp [onRebalance, onRevoked, forgetLocked, commitLocked_log, hne]
    · left
      have hlook : (commitLocked c parts ok).pending.lookup p = some off := by
        rw [commitLocked_lookup, if_neg (by simp [ho, h]), hoff]
      simp [onRebalance, onRevoked, forgetLocked, hp, hlook]

/-- Every commit names owned partitions and offsets marked in their current period, never
going back within it; what was marked before a revoke or a loss is not committed
afterwards; and a callback keeps the pending offsets of the partitions it does not name. -/
theorem commits_within_ownership {c : State} (hc : Reachable c) :
    (∀ post offsets ok pre, c.log = post ++ .commit offsets ok :: pre → ∀ o ∈ offsets,
      ownedIn o.tp pre ∧ o.next - 1 ∈ marksIn o.tp pre ∧
      (∀ offsets' ok', .commit offsets' ok' ∈ period o.tp pre →
        ∀ o' ∈ offsets', o'.tp = o.tp → o'.next ≤ o.next) ∧
      (∀ mid e older parts, pre = mid ++ e :: older → e = .revoked parts ∨ e = .lost parts →
        o.tp ∈ parts → .marked o.tp (o.next - 1) ∈ mid)) ∧
    (∀ ok event p off, c.pending.lookup p = some off → p ∉ event.parts.getD [] →
      (onRebalance c ok event).pending.lookup p = some off ∨
        ok = true ∧ ∃ offsets, ⟨p, off + 1⟩ ∈ offsets ∧
          (onRebalance c ok event).log = .revoked [] :: .commit offsets ok :: c.log) := by
  have hinv := inv_of_reachable hc
  refine ⟨fun post offsets ok pre h o ho => ?_, fun ok event p off => onRebalance_keeps hinv ok event⟩
  obtain ⟨howned, hlatest⟩ := hinv.tracks.commits post offsets ok pre h o ho
  have hmark : o.next - 1 ∈ marksIn o.tp pre := List.mem_of_mem_head? hlatest.1
  have hearlier : ∀ post' offsets' ok' pre', pre = post' ++ .commit offsets' ok' :: pre' →
      ∀ o ∈ offsets', ownedIn o.tp pre' ∧ Latest o.tp (o.next - 1) (period o.tp pre') := by
    rintro post' offsets' ok' pre' rfl
    exact hinv.tracks.commits (post ++ .commit offsets ok :: post') offsets' ok' pre' (by simp [h])
  refine ⟨howned, hmark, fun offsets' ok' hmem o' ho' htp => ?_, fun mid e older parts hpre he hp => ?_⟩
  · have := commit_le_of_latest hearlier hlatest hmem ho' htp
    omega
  · have hleft : ownedIn o.tp (e :: older) = false := by
      rcases he with rfl | rfl <;> simp [ownedIn, hp]
    exact mem_of_mem_period hleft (hpre ▸ mem_marks.mp hmark)

def lostAndBack : State :=
  let p : TopicPartition := ⟨"tasks.events", 0⟩
  let q : TopicPartition := ⟨"tasks.events", 1⟩
  let record (partition offset : Int) : Message :=
    ⟨"tasks.events", [], [], partition, offset, [], 0, 0⟩
  [.rebalance (.assigned (some [p, q])) true, .record (record 0 4), .record (record 1 7),
    .commit false, .rebalance (.lost (some [p])) true, .rebalance (.assigned (some [p])) true,
    .record (record 0 3), .commit true].foldl apply State.new

theorem reachable_lostAndBack : Reachable lostAndBack := by
  unfold lostAndBack
  simp only [foldl_cons, foldl_nil]
  iterate 8 refine Reachable.step _ ?_ ?_
  · exact Reachable.new
  all_goals rintro r ⟨⟩ <;> decide

theorem commits_within_ownership_lostAndBack :
    ∃ pre, lostAndBack.log =
        .commit [⟨⟨"tasks.events", 0⟩, 4⟩, ⟨⟨"tasks.events", 1⟩, 8⟩] true :: pre ∧
      ownedIn ⟨"tasks.events", 0⟩ pre ∧ (3 : Int) ∈ marksIn ⟨"tasks.events", 0⟩ pre := by
  refine ⟨lostAndBack.log.tail, by decide, ?_⟩
  obtain ⟨ho, hm, -⟩ := (commits_within_ownership reachable_lostAndBack).1 []
    [⟨⟨"tasks.events", 0⟩, 4⟩, ⟨⟨"tasks.events", 1⟩, 8⟩] true lostAndBack.log.tail (by decide)
    ⟨⟨"tasks.events", 0⟩, 4⟩ (by decide)
  exact ⟨ho, hm⟩

end GolangBasics.Kafka.Consumer
