import GolangBasics.Kafka.Rdkafka.Poll
import Mathlib.Data.List.Basic

/-! Which of the polled messages `Poll` returns, compared with the contract of
`kafka.ConsumerClient`: the messages whose partition was not revoked or lost after
they were polled. The callback only records a revocation; the loop applies it at the
end of an iteration that did not leave early. -/
namespace GolangBasics.Kafka.Rdkafka
open List

def RebalanceEvent.revokes : RebalanceEvent → List TopicPartition
  | .revoked parts _ => toPartitions parts
  | _ => []

namespace InnerCall

def revokes (call : InnerCall) : List TopicPartition :=
  call.callbacks.flatMap RebalanceEvent.revokes

def message? (call : InnerCall) : Option Message :=
  match call.event with
  | some (.message m) => if m.topicPartition.error.isNone then some (toMessage m) else none
  | _ => none

/-- The iteration reaches the end of the loop body, where revocations are applied. -/
def applies (call : InnerCall) : Bool :=
  match call.event with
  | none => false
  | some (.message m) => m.topicPartition.error.isNone
  | some _ => true

end InnerCall

/-- A partition is revoked or lost by one of the calls. -/
def revokedIn (p : TopicPartition) (calls : List InnerCall) : Bool :=
  calls.any fun call => p ∈ call.revokes

/-- What the contract asks for: the error-free messages whose partition no later inner
call revokes. -/
def survivors : List InnerCall → List Message
  | [] => []
  | call :: calls =>
    (call.message?.filter fun m => !revokedIn m.tp calls).toList ++ survivors calls

/-- Revocations recorded and still not applied after `calls`. -/
def unapplied (gone : List TopicPartition) : List InnerCall → List TopicPartition
  | [] => gone
  | call :: calls => unapplied (if call.applies then [] else record gone call.revokes) calls

def applied (p : TopicPartition) (gone : List TopicPartition) : List InnerCall → Bool
  | [] => false
  | call :: calls =>
    let gone := record gone call.revokes
    if call.applies then p ∈ gone || applied p [] calls else applied p gone calls

/-- An error-free message with the inner calls after it. It is stale when a revocation
of its partition was recorded, but not applied, before it was polled. -/
structure Sighting where
  message : Message
  stale : Bool
  later : List InnerCall

def sightings (gone : List TopicPartition) : List InnerCall → List Sighting
  | [] => []
  | call :: calls =>
    let gone := record gone call.revokes
    (call.message?.map fun m => ⟨m, m.tp ∈ gone, calls⟩).toList ++
      sightings (if call.applies then [] else gone) calls

namespace Sighting

def survives (x : Sighting) : Bool := !revokedIn x.message.tp x.later

def returned (x : Sighting) : Bool := !x.stale && !applied x.message.tp [] x.later

end Sighting

/-- A stale message is revoked again by a later call, and a revocation that is never
applied finds its message already dropped. -/
def Settled (calls : List InnerCall) : Prop :=
  ∀ x ∈ sightings [] calls, (x.stale → revokedIn x.message.tp x.later) ∧
    (x.message.tp ∈ unapplied [] x.later → x.stale ∨ applied x.message.tp [] x.later)

instance (calls : List InnerCall) : Decidable (Settled calls) :=
  inferInstanceAs (Decidable (∀ x ∈ sightings [] calls, _ ∧ _))

variable {gone : List TopicPartition}

@[simp] theorem mem_record {p : TopicPartition} {parts : List TopicPartition} :
    p ∈ record gone parts ↔ p ∈ gone ∨ p ∈ parts := by
  rw [record, mem_foldl_insert, or_comm]

theorem record_append (gone parts parts' : List TopicPartition) :
    record gone (parts ++ parts') = record (record gone parts) parts' :=
  foldl_append ..

theorem revoked_foldl_rebalance (c : Consumer) (events : List RebalanceEvent) :
    (events.foldl rebalance c).revoked =
      c.revoked.map (record · (events.flatMap RebalanceEvent.revokes)) := by
  induction events generalizing c with
  | nil => cases h : c.revoked <;> simp [record, h]
  | cons e events ih =>
    rw [foldl_cons, ih, flatMap_cons]
    have he : (rebalance c e).revoked = c.revoked.map (record · e.revokes) := by
      cases e with
      | revoked parts lost => rfl
      | assigned parts => cases h : c.revoked <;> simp [rebalance, RebalanceEvent.revokes, record, h]
      | other => cases h : c.revoked <;> simp [rebalance, RebalanceEvent.revokes, record, h]
    rw [he, Option.map_map]
    congr 1
    funext gone
    exact (record_append gone _ _).symm

/-- Every revocation is applied in the end or still unapplied. -/
theorem revokedIn_iff (p : TopicPartition) (gone : List TopicPartition) (calls : List InnerCall) :
    (p ∈ gone ∨ revokedIn p calls) ↔ applied p gone calls ∨ p ∈ unapplied gone calls := by
  induction calls generalizing gone with
  | nil => simp [revokedIn, applied, unapplied]
  | cons call calls ih =>
    have hcons : revokedIn p (call :: calls) ↔ p ∈ call.revokes ∨ revokedIn p calls := by
      simp [revokedIn]
    rw [hcons]
    by_cases ha : call.applies
    · have := ih []
      simp only [applied, unapplied, ha, if_true, Bool.or_eq_true, decide_eq_true_eq, mem_record]
      simp only [not_mem_nil, false_or] at this
      rw [this, or_assoc, or_assoc]
    · have := ih (record gone call.revokes)
      simp only [applied, unapplied, ha, mem_record] at this ⊢
      simp only [Bool.false_eq_true, if_false]
      rw [← or_assoc, this]

theorem survivors_eq (gone : List TopicPartition) (calls : List InnerCall) :
    survivors calls = ((sightings gone calls).filter Sighting.survives).map Sighting.message := by
  induction calls generalizing gone with
  | nil => rfl
  | cons call calls ih =>
    rw [survivors, sightings, filter_append, map_append, ← ih]
    congr 1
    cases call.message? with
    | none => rfl
    | some m => by_cases h : revokedIn m.tp calls <;> simp [Option.filter, Sighting.survives, h]

variable {call : InnerCall}

theorem applies_of_message {m : Message} (h : call.message? = some m) : call.applies := by
  unfold InnerCall.message? at h
  unfold InnerCall.applies
  split at h
  · split at h <;> simp_all
  · simp at h

variable {calls : List InnerCall}

/-- The iteration of a message clears the record, so what is unapplied at the end was
recorded after it. -/
theorem unapplied_of_mem {x : Sighting} (hx : x ∈ sightings gone calls) :
    unapplied [] x.later = unapplied gone calls := by
  induction calls generalizing gone with
  | nil => simp [sightings] at hx
  | cons call calls ih =>
    rw [sightings, mem_append] at hx
    rcases hx with hx | hx
    · cases hm : call.message? with
      | none => simp [hm] at hx
      | some m =>
        obtain rfl : x = ⟨m, _, calls⟩ := by simpa [hm] using hx
        simp [unapplied, applies_of_message hm]
    · exact ih hx

theorem sweep_out {l : Loop} (h : l.c.revoked = some gone) :
    (sweep l).out = l.out.filter fun m => m.tp ∉ gone := by
  unfold sweep
  cases gone <;> simp [h]

theorem sweep_revoked {l : Loop} (h : l.c.revoked = some gone) : (sweep l).c.revoked = some [] := by
  unfold sweep
  cases gone <;> simp [h]

private def held (gone : List TopicPartition) (out : List Message) (calls : List InnerCall) :
    List Message :=
  (out.filter fun m => !applied m.tp gone calls) ++
    ((sightings gone calls).filter Sighting.returned).map Sighting.message

private theorem held_cons_of_applies {out : List Message} (ha : call.applies) :
    held [] ((out ++ call.message?.toList).filter fun m => m.tp ∉ record gone call.revokes) calls =
      held gone out (call :: calls) := by
  have hout : ((out.filter fun m => m.tp ∉ record gone call.revokes).filter
      fun m => !applied m.tp [] calls) = out.filter fun m => !applied m.tp gone (call :: calls) := by
    rw [filter_filter]
    refine filter_congr fun m _ => ?_
    simp [applied, ha, Bool.and_comm]
  have hnew : ((call.message?.toList.filter fun m => m.tp ∉ record gone call.revokes).filter
      fun m => !applied m.tp [] calls) =
        ((call.message?.map fun m => Sighting.mk m (m.tp ∈ record gone call.revokes) calls).toList.filter
          Sighting.returned).map Sighting.message := by
    cases call.message? with
    | none => rfl
    | some m =>
      by_cases h₁ : m.tp ∈ record gone call.revokes
      · simp [h₁, Sighting.returned, -mem_record]
      · by_cases h₂ : applied m.tp [] calls <;> simp [h₁, h₂, Sighting.returned, -mem_record]
  simp only [held, sightings, ha, if_true, filter_append, map_append, hout, hnew,
    append_assoc]

private theorem held_cons_of_not_applies {out : List Message} (ha : call.applies = false) :
    held (record gone call.revokes) out calls = held gone out (call :: calls) := by
  have hm : call.message? = none := by
    cases h : call.message? with
    | none => rfl
    | some m => simp [applies_of_message h] at ha
  simp [held, sightings, applied, ha, hm]

private theorem held_nil (gone : List TopicPartition) (out : List Message) :
    held gone out [] = out := by
  simp [held, applied, sightings]

/-- What one iteration of the loop comes to: it returns, goes on through the end of the body,
goes on by `continue`, or fails for good. -/
inductive Iteration (max : Int) (l : Loop) (call : InnerCall) (calls : List InnerCall) :
    Polled → Prop where
  | full : Iteration max l call calls (l.done (call :: calls))
  | idle {l' : Loop} (ha : call.applies = false) (hout : l'.out = l.out) :
      Iteration max l call calls (l'.done calls)
  | through {l' : Loop} (ha : call.applies)
      (hr : l'.c.revoked = l.c.revoked.map (record · call.revokes))
      (hout : l'.out = l.out ++ call.message?.toList) :
      Iteration max l call calls (pollLoop max (sweep l') calls)
  | skip {l' : Loop} (ha : call.applies = false)
      (hr : l'.c.revoked = l.c.revoked.map (record · call.revokes)) (hout : l'.out = l.out) :
      Iteration max l call calls (pollLoop max l' calls)
  | failed {r : Polled} (hf : r.fatal) : Iteration max l call calls r

theorem pollLoop_iteration (max : Int) (l : Loop) (call : InnerCall) (calls : List InnerCall) :
    Iteration max l call calls (pollLoop max l (call :: calls)) := by
  have hr := revoked_foldl_rebalance l.c call.callbacks
  unfold pollLoop
  split_ifs with hmax
  · exact .full
  cases he : call.event with
  | none =>
    have ha : call.applies = false := by simp [InnerCall.applies, he]
    simp only
    split_ifs
    · exact .idle ha rfl
    · exact .skip ha hr rfl
  | some event =>
    cases event with
    | message m =>
      cases hm : m.topicPartition.error with
      | some e =>
        simp only [hm]
        exact .skip (by simp [InnerCall.applies, he, hm]) hr rfl
      | none =>
        simp only [hm]
        exact .through (by simp [InnerCall.applies, he, hm]) hr
          (by simp [InnerCall.message?, he, hm])
    | error e fatal =>
      cases fatal with
      | true => exact .failed (by simp [Polled.fatal, Err.is])
      | false =>
        exact .through (by simp [InnerCall.applies, he]) hr (by simp [InnerCall.message?, he])
    | _ => exact .through (by simp [InnerCall.applies, he]) hr (by simp [InnerCall.message?, he])

/-- By induction on the inner calls, with what is already polled and recorded as revoked. -/
theorem pollLoop_messages (max : Int) (l : Loop) (calls : List InnerCall)
    (hl : l.c.revoked = some gone) (hf : (pollLoop max l calls).fatal = false) :
    ∃ made, calls = made ++ (pollLoop max l calls).unread ∧
      (pollLoop max l calls).messages = held gone l.out made := by
  induction calls generalizing l gone with
  | nil => exact ⟨[], rfl, (held_nil gone l.out).symm⟩
  | cons call calls ih =>
    have hit := pollLoop_iteration max l call calls
    generalize pollLoop max l (call :: calls) = r at hit hf ⊢
    cases hit with
    | full => exact ⟨[], rfl, (held_nil gone l.out).symm⟩
    | @idle l' ha hout =>
      refine ⟨[call], rfl, ?_⟩
      rw [← held_cons_of_not_applies ha, held_nil]
      exact hout
    | @through l' ha hr hout =>
      rw [hl] at hr
      obtain ⟨made, hmade, hmsg⟩ := ih (sweep l') (sweep_revoked hr) hf
      refine ⟨call :: made, by rw [cons_append, ← hmade], ?_⟩
      rw [hmsg, sweep_out hr, hout, held_cons_of_applies ha]
    | @skip l' ha hr hout =>
      rw [hl] at hr
      obtain ⟨made, hmade, hmsg⟩ := ih l' hr hf
      refine ⟨call :: made, by rw [cons_append, ← hmade], ?_⟩
      rw [hmsg, hout, held_cons_of_not_applies ha]
    | failed hfatal => simp [hfatal] at hf

theorem poll_messages (c : Consumer) (max : Int) (calls made : List InnerCall)
    (hmade : calls = made ++ (poll c max calls).unread)
    (hf : (poll c max calls).fatal = false) :
    (poll c max calls).messages =
      ((sightings [] made).filter Sighting.returned).map Sighting.message := by
  unfold poll at hmade hf ⊢
  split at hmade
  · rename_i hc
    obtain rfl : made = [] := by simpa using hmade
    simp [hc, sightings]
  · rename_i hc
    rw [if_neg hc] at hf ⊢
    obtain ⟨made', h, hmsg⟩ := pollLoop_messages max ⟨{ c with revoked := some [] }, [], [], 100⟩
      calls (rfl : some [] = some []) hf
    obtain rfl : made = made' := append_cancel_right (hmade.symm.trans h)
    simpa [held] using hmsg

theorem revokedIn_later_iff (x : Sighting) : revokedIn x.message.tp x.later ↔
    applied x.message.tp [] x.later ∨ x.message.tp ∈ unapplied [] x.later := by
  simpa using revokedIn_iff x.message.tp [] x.later

theorem survives_iff (x : Sighting) : x.survives ↔
    ¬applied x.message.tp [] x.later ∧ x.message.tp ∉ unapplied [] x.later := by
  simp only [Sighting.survives, Bool.not_eq_true', ← Bool.not_eq_true]
  rw [revokedIn_later_iff, not_or]

theorem returned_iff (x : Sighting) : x.returned ↔
    ¬x.stale ∧ ¬applied x.message.tp [] x.later := by
  simp [Sighting.returned]

theorem settled_iff_agree (made : List InnerCall) :
    Settled made ↔ ∀ x ∈ sightings [] made, x.returned = x.survives := by
  refine forall₂_congr fun x _ => ?_
  rw [Bool.eq_iff_iff (a := x.returned), returned_iff, survives_iff, revokedIn_later_iff]
  tauto

private theorem of_length_filter_eq {α : Type} {l : List α} {f g : α → Bool}
    (hfg : ∀ x ∈ l, f x → g x) (h : (l.filter f).length = (l.filter g).length) :
    ∀ x ∈ l, g x → f x := by
  have hsub : (l.filter g).filter f = l.filter f := by
    rw [filter_filter]
    refine filter_congr fun x hx => ?_
    cases hf : f x <;> simp [hf, hfg x hx]
  have hall := length_filter_eq_length_iff.mp (hsub ▸ h : ((l.filter g).filter f).length = _)
  exact fun x hx hg => hall x (mem_filter.mpr ⟨hx, hg⟩)

/-- Equal results force every message to be treated as the contract says. Messages of
one partition are compared with each other: with an unapplied revocation at the end none
of them survives, and otherwise everything returned survives. -/
theorem agree_of_messages_eq {made : List InnerCall}
    (h : ((sightings [] made).filter Sighting.returned).map Sighting.message = survivors made) :
    ∀ x ∈ sightings [] made, x.returned = x.survives := by
  rw [survivors_eq []] at h
  intro x hx
  by_cases hu : x.message.tp ∈ unapplied [] x.later
  · have hnone : ∀ y ∈ sightings [] made, y.message.tp = x.message.tp → y.survives = false := by
      intro y hy hyx
      rw [unapplied_of_mem hx, ← unapplied_of_mem hy, ← hyx] at hu
      rw [Bool.eq_false_iff, ne_eq, survives_iff]
      exact fun hs => hs.2 hu
    rw [hnone x hx rfl, Bool.eq_false_iff]
    intro hr
    have hmem : x.message ∈ ((sightings [] made).filter Sighting.survives).map Sighting.message :=
      h ▸ mem_map_of_mem (mem_filter.mpr ⟨hx, hr⟩)
    obtain ⟨y, hy, hyx⟩ := mem_map.mp hmem
    obtain ⟨hy, hs⟩ := mem_filter.mp hy
    rw [hnone y hy (by rw [hyx])] at hs
    exact absurd hs (by simp)
  · have hsub : ∀ y ∈ sightings [] made, (y.returned && y.message.tp = x.message.tp) →
        (y.survives && y.message.tp = x.message.tp) := by
      intro y hy hret
      simp only [Bool.and_eq_true, decide_eq_true_eq] at hret ⊢
      refine ⟨(survives_iff y).mpr ⟨?_, ?_⟩, hret.2⟩
      · exact ((returned_iff y).mp hret.1).2
      · rwa [unapplied_of_mem hy, ← unapplied_of_mem hx, hret.2]
    have hlen := congrArg (fun l => (l.filter fun m => m.tp = x.message.tp).length) h
    simp only [filter_map, length_map, filter_filter, Function.comp_def] at hlen
    have hback := of_length_filter_eq hsub (by simpa only [Bool.and_comm] using hlen) x hx
    have hforth := hsub x hx
    simp only [decide_true, Bool.and_true] at hback hforth
    exact Bool.eq_iff_iff.mpr ⟨hforth, hback⟩

/-- `Poll` meets the contract exactly on the sequences of inner calls where every
revocation is applied to the messages polled before it and to no others. -/
theorem poll_messages_eq_survivors_iff (c : Consumer) (max : Int) (calls made : List InnerCall)
    (hmade : calls = made ++ (poll c max calls).unread)
    (hf : (poll c max calls).fatal = false) :
    (poll c max calls).messages = survivors made ↔ Settled made := by
  rw [poll_messages c max calls made hmade hf]
  rw [settled_iff_agree]
  constructor
  · exact agree_of_messages_eq
  · intro h
    rw [survivors_eq [], filter_congr h]

def idle : Consumer := ⟨false, none, none, [], []⟩

def partition0 : ClientPartition := ⟨some "t", 0, 4, none⟩

def record0 : ClientEvent := .message ⟨partition0, [], [], [], 0⟩

def revokedBetween : List InnerCall :=
  [⟨[.assigned [partition0]], some record0⟩, ⟨[.revoked [partition0] false], some (.stats "")⟩,
    ⟨[.assigned [partition0]], some record0⟩]

theorem poll_revokedBetween :
    (poll idle 10 revokedBetween).messages = survivors revokedBetween ∧
      survivors revokedBetween ≠ [] :=
  ⟨(poll_messages_eq_survivors_iff idle 10 revokedBetween revokedBetween (by decide)
    (by decide)).mpr (by decide), by decide⟩

def revokedLast : List InnerCall :=
  [⟨[.assigned [partition0]], some record0⟩, ⟨[.revoked [partition0] false], none⟩]

def revokedFirst : List InnerCall :=
  [⟨[.revoked [partition0] false], none⟩, ⟨[.assigned [partition0]], some record0⟩]

/-- A record of a partition revoked after it was polled is returned, and a record polled
after its partition was assigned again is dropped. -/
theorem poll_revokedLast_and_revokedFirst :
    ((poll idle 10 revokedLast).unread = [] ∧ (poll idle 10 revokedLast).fatal = false ∧
      (poll idle 10 revokedLast).messages ≠ [] ∧ survivors revokedLast = []) ∧
    ((poll idle 10 revokedFirst).unread = [] ∧ (poll idle 10 revokedFirst).fatal = false ∧
      (poll idle 10 revokedFirst).messages = [] ∧ survivors revokedFirst ≠ []) := by
  decide

end GolangBasics.Kafka.Rdkafka
