import GolangBasics.Kafka.Types
import Mathlib.Data.List.AList

/-! The offset bookkeeping of `kafka.Consumer`: the processed, not yet committed offsets,
the owned partitions, and the group callbacks. Every function here runs under `c.mu`. The
log is the history of the consumer, newest event first. -/
namespace GolangBasics.Kafka.Consumer
open List

/-- What a driver or a handler sees of the consumer: group callbacks, polls, handler
calls, dead-letter publishes and commits, and the records marked as processed between them. -/
inductive Event where
  | assigned (parts : List TopicPartition)
  | revoked (parts : List TopicPartition)
  | lost (parts : List TopicPartition)
  | polled (records : List Message)
  | invoked (r : Message) (attempt : Nat) (result : Option Err)
  | published (r : Message) (msg : Message) (result : Option Err)
  | marked (tp : TopicPartition) (offset : Int)
  | commit (offsets : List Offset) (ok : Bool)
  deriving DecidableEq

abbrev Pending := AList fun _ : TopicPartition => Int

structure State where
  pending : Pending
  owned : List TopicPartition
  log : List Event

def State.new : State := ⟨∅, [], []⟩

def dropAll (m : Pending) (parts : List TopicPartition) : Pending :=
  parts.foldl (fun m p => m.erase p) m

def owns (c : State) (r : Message) : Bool := r.tp ∈ c.owned

def markDone (c : State) (r : Message) : State :=
  { c with pending := c.pending.insert r.tp r.offset, log := .marked r.tp r.offset :: c.log }

def included (only : Option (List TopicPartition)) (tp : TopicPartition) : Bool :=
  only.all fun parts => tp ∈ parts

/-- The offsets `commitLocked` passes to `Commit`. A Go map has no order, so only the
elements of this list mean anything. -/
def commitOffsets (c : State) (only : Option (List TopicPartition)) : List Offset :=
  c.pending.entries.filterMap fun e =>
    if e.1 ∈ c.owned ∧ included only e.1 then some ⟨e.1, e.2 + 1⟩ else none

/-- `commitLocked`, where `ok` tells whether the driver's `Commit` returns nil. -/
def commitLocked (c : State) (only : Option (List TopicPartition)) (ok : Bool) : State :=
  let offsets := commitOffsets c only
  let pending := dropAll c.pending (c.pending.keys.filter fun tp => tp ∉ c.owned)
  if offsets = [] then { c with pending } else
  let log := .commit offsets ok :: c.log
  if ok then
    { c with
      pending := offsets.foldl
        (fun m o => if (m.lookup o.tp).getD 0 = o.next - 1 then m.erase o.tp else m) pending
      log }
  else { c with pending, log }

def commitPending (c : State) (ok : Bool) : State := commitLocked c none ok

def forgetLocked (c : State) (gone : List TopicPartition) : State :=
  { c with owned := c.owned.filter fun p => p ∉ gone }

def onAssigned (c : State) (parts : Option (List TopicPartition)) : State :=
  let parts := parts.getD []
  { c with owned := parts.foldl (fun owned p => owned.insert p) c.owned
           log := .assigned parts :: c.log }

def onRevoked (c : State) (parts : Option (List TopicPartition)) (ok : Bool) : State :=
  let c := commitLocked c parts ok
  let parts := parts.getD []
  forgetLocked { c with pending := dropAll c.pending parts, log := .revoked parts :: c.log } parts

def onLost (c : State) (parts : Option (List TopicPartition)) : State :=
  let parts := parts.getD []
  forgetLocked { c with pending := dropAll c.pending parts, log := .lost parts :: c.log } parts

def onRebalance (c : State) (ok : Bool) : Rebalance → State
  | .assigned parts => onAssigned c parts
  | .revoked parts => onRevoked c parts ok
  | .lost parts => onLost c parts

@[simp] theorem lookup_dropAll (m : Pending) (parts : List TopicPartition) (p : TopicPartition) :
    (dropAll m parts).lookup p = if p ∈ parts then none else m.lookup p := by
  induction parts generalizing m with
  | nil => simp [dropAll]
  | cons q parts ih =>
    have h : dropAll m (q :: parts) = dropAll (m.erase q) parts := rfl
    rw [h, ih]
    by_cases hq : p = q
    · subst hq; simp
    · simp [hq, AList.lookup_erase_ne hq]

theorem mem_commitOffsets {c : State} {only : Option (List TopicPartition)} {o : Offset} :
    o ∈ commitOffsets c only ↔
      c.pending.lookup o.tp = some (o.next - 1) ∧ o.tp ∈ c.owned ∧ included only o.tp := by
  simp only [commitOffsets, mem_filterMap]
  constructor
  · rintro ⟨⟨tp, off⟩, he, h⟩
    split_ifs at h with hc
    obtain rfl := Option.some.inj h
    refine ⟨?_, hc⟩
    simpa using AList.mem_lookup_iff.mpr he
  · rintro ⟨hl, ho, hi⟩
    refine ⟨⟨o.tp, o.next - 1⟩, AList.mem_lookup_iff.mp hl, ?_⟩
    simp [ho, hi]

/-- Offsets taken from the map are all deleted again, whatever their order. -/
private theorem lookup_foldl_committed (offsets : List Offset) (m : Pending) (p : TopicPartition)
    (h : ∀ o ∈ offsets, m.lookup o.tp = some (o.next - 1) ∨ m.lookup o.tp = none) :
    (offsets.foldl (fun m o => if (m.lookup o.tp).getD 0 = o.next - 1 then m.erase o.tp else m)
      m).lookup p = if p ∈ offsets.map Offset.tp then none else m.lookup p := by
  induction offsets generalizing m with
  | nil => simp
  | cons o offsets ih =>
    have hm : ∀ q, (if (m.lookup o.tp).getD 0 = o.next - 1 then m.erase o.tp else m).lookup q =
        if q = o.tp then none else m.lookup q := by
      intro q
      by_cases hq : q = o.tp
      · subst hq
        rcases h o mem_cons_self with ho | ho <;> split_ifs <;> simp_all
      · split_ifs <;> simp [AList.lookup_erase_ne hq]
    rw [foldl_cons, ih, hm, map_cons]
    · by_cases hp : p = o.tp <;> simp [hp]
    · intro o' ho'
      rw [hm]
      split_ifs
      · exact .inr rfl
      · exact h o' (mem_cons_of_mem _ ho')

theorem commitLocked_owned (c : State) (only : Option (List TopicPartition)) (ok : Bool) :
    (commitLocked c only ok).owned = c.owned := by
  unfold commitLocked
  simp only
  split_ifs <;> rfl

theorem commitLocked_log (c : State) (only : Option (List TopicPartition)) (ok : Bool) :
    (commitLocked c only ok).log =
      if commitOffsets c only = [] then c.log else .commit (commitOffsets c only) ok :: c.log := by
  unfold commitLocked
  simp only
  split_ifs <;> rfl

/-- A commit forgets what it committed and what is not owned, and nothing else. -/
theorem commitLocked_lookup (c : State) (only : Option (List TopicPartition)) (ok : Bool)
    (p : TopicPartition) :
    (commitLocked c only ok).pending.lookup p =
      if p ∉ c.owned ∨ (ok ∧ included only p) then none else c.pending.lookup p := by
  have hdrop : ∀ q, (dropAll c.pending (c.pending.keys.filter fun tp => tp ∉ c.owned)).lookup q =
      if q ∉ c.owned then none else c.pending.lookup q := by
    intro q
    rw [lookup_dropAll]
    by_cases hq : q ∈ c.owned
    · simp [hq]
    · by_cases hk : q ∈ c.pending.keys
      · simp [hq, hk]
      · simp [hq, hk, AList.lookup_eq_none.mpr hk]
  have hmem : p ∈ c.owned → included only p → p ∉ (commitOffsets c only).map Offset.tp →
      c.pending.lookup p = none := by
    intro ho hi hn
    cases hl : c.pending.lookup p with
    | none => rfl
    | some off =>
      exact absurd (mem_map.mpr ⟨⟨p, off + 1⟩, mem_commitOffsets.mpr ⟨by simpa using hl, ho, hi⟩,
        rfl⟩) hn
  have hback : p ∈ (commitOffsets c only).map Offset.tp → included only p := by
    intro h
    obtain ⟨o, ho, rfl⟩ := mem_map.mp h
    exact (mem_commitOffsets.mp ho).2.2
  unfold commitLocked
  by_cases hnil : commitOffsets c only = []
  · have hnone : p ∈ c.owned → included only p → c.pending.lookup p = none :=
      fun ho hi => hmem ho hi (by simp [hnil])
    simp only [hnil, if_true, hdrop]
    by_cases ho : p ∈ c.owned <;> by_cases hi : included only p <;> simp_all
  · cases ok with
    | false =>
      simp only [hnil, if_false, Bool.false_eq_true, hdrop]
      simp
    | true =>
      simp only [hnil, if_false, if_true]
      rw [lookup_foldl_committed, hdrop]
      · by_cases ho : p ∈ c.owned <;> by_cases hi : included only p <;>
          by_cases hp : p ∈ (commitOffsets c only).map Offset.tp <;> simp_all
      · intro o ho
        obtain ⟨hl, ho, -⟩ := mem_commitOffsets.mp ho
        simp [ho, hl]

end GolangBasics.Kafka.Consumer
