import GolangBasics.Kafka.Consumer.Offsets

/-! Ownership periods in the history of a consumer, and the one argument behind every
statement about its commits: what holds of a pending offset for as long as its partition stays
owned holds of the offset when it is committed. -/
namespace GolangBasics.Kafka.Consumer

/-- Whether the last group change of `p` in the log was an assignment. -/
def ownedIn (p : TopicPartition) : List Event → Bool
  | [] => false
  | .assigned parts :: log => p ∈ parts || ownedIn p log
  | .revoked parts :: log => p ∉ parts && ownedIn p log
  | .lost parts :: log => p ∉ parts && ownedIn p log
  | _ :: log => ownedIn p log

/-- The events since `p` was last assigned, none when it is not owned. An assignment of
a partition already owned starts no new period. -/
def period (p : TopicPartition) : List Event → List Event
  | [] => []
  | e :: log => if ownedIn p (e :: log) then e :: period p log else []

def Event.moves (p : TopicPartition) : Event → Bool
  | .assigned parts | .revoked parts | .lost parts => p ∈ parts
  | _ => false

variable {p : TopicPartition} {log : List Event}

theorem ownedIn_cons {e : Event} (he : e.moves p = false) :
    ownedIn p (e :: log) = ownedIn p log := by
  cases e <;> simp_all [ownedIn, Event.moves]

theorem period_cons {e : Event} (he : e.moves p = false) :
    period p (e :: log) = if ownedIn p log then e :: period p log else [] := by
  rw [period, ownedIn_cons he]

theorem period_of_not_owned (h : ownedIn p log = false) : period p log = [] := by
  cases log with
  | nil => rfl
  | cons e log => simp [period, h]

theorem period_cons_cases (p : TopicPartition) (e : Event) (log : List Event) :
    period p (e :: log) = e :: period p log ∧ ownedIn p (e :: log) ∨
      period p (e :: log) = [] ∧ ownedIn p (e :: log) = false := by
  rw [period]
  cases ownedIn p (e :: log) <;> simp

/-- Nothing from before `p` was given up belongs to its current period. -/
theorem mem_of_mem_period {e x : Event} {mid older : List Event}
    (he : ownedIn p (e :: older) = false) (h : x ∈ period p (mid ++ e :: older)) : x ∈ mid := by
  induction mid with
  | nil => simp [period_of_not_owned he] at h
  | cons e' mid ih =>
    rcases period_cons_cases p e' (mid ++ e :: older) with ⟨hp, -⟩ | ⟨hp, -⟩
    · rw [List.cons_append, hp] at h
      rcases List.mem_cons.mp h with rfl | h
      · exact List.mem_cons_self
      · exact List.mem_cons_of_mem _ (ih h)
    · simp [hp] at h

theorem period_split {e : Event} (h : e ∈ period p log) :
    ∃ post pre, log = post ++ e :: pre ∧ period p log = post ++ e :: period p pre := by
  induction log with
  | nil => simp [period] at h
  | cons e' log ih =>
    rcases period_cons_cases p e' log with ⟨hp, -⟩ | ⟨hp, -⟩
    · rw [hp] at h ⊢
      rcases List.mem_cons.mp h with rfl | h
      · exact ⟨[], log, rfl, rfl⟩
      · obtain ⟨post, pre, rfl, hpre⟩ := ih h
        exact ⟨e' :: post, pre, rfl, by rw [hpre]; rfl⟩
    · simp [hp] at h

def Event.passive : Event → Bool
  | .assigned _ | .revoked _ | .lost _ | .commit .. => true
  | _ => false

theorem commitLocked_passive (c : State) (only : Option (List TopicPartition)) (ok : Bool) :
    ∃ new, (commitLocked c only ok).log = new ++ c.log ∧ ∀ e ∈ new, e.passive := by
  rw [commitLocked_log]
  split_ifs
  · exact ⟨[], rfl, by simp⟩
  · exact ⟨[_], rfl, by simp [Event.passive]⟩

theorem onRebalance_passive (c : State) (ok : Bool) (event : Rebalance) :
    ∃ new, (onRebalance c ok event).log = new ++ c.log ∧ ∀ e ∈ new, e.passive := by
  cases event with
  | assigned parts => exact ⟨[_], rfl, by simp [Event.passive]⟩
  | revoked parts =>
    obtain ⟨new, hlog, hnew⟩ := commitLocked_passive c parts ok
    refine ⟨.revoked (parts.getD []) :: new, ?_, ?_⟩
    · simp [onRebalance, onRevoked, forgetLocked, hlog]
    · simpa [Event.passive] using hnew
  | lost parts => exact ⟨[_], rfl, by simp [Event.passive]⟩

section Tracks

variable {Φ : TopicPartition → Int → List Event → Prop}

/-- The bookkeeping agrees with the history: `owned` is what the callbacks say, and `Φ` holds
of each pending offset, and of each offset ever committed, in the period of its partition. -/
structure Tracks (Φ : TopicPartition → Int → List Event → Prop) (c : State) : Prop where
  owned : ∀ p, p ∈ c.owned ↔ ownedIn p c.log
  pending : ∀ p off, c.pending.lookup p = some off → p ∈ c.owned ∧ Φ p off (period p c.log)
  commits : ∀ post offsets ok pre, c.log = post ++ .commit offsets ok :: pre →
    ∀ o ∈ offsets, ownedIn o.tp pre ∧ Φ o.tp (o.next - 1) (period o.tp pre)

theorem tracks_new : Tracks Φ State.new where
  owned p := by simp [State.new, ownedIn]
  pending p off h := by simp [State.new] at h
  commits post offsets ok pre h := by simp [State.new] at h

variable {c : State}

/-- One more event, when `Φ` holds of what is pending after it and what it commits was
pending before. -/
theorem tracks_cons (hc : Tracks Φ c) {e : Event} {pending : Pending} {owned : List TopicPartition}
    (howned : ∀ p, p ∈ owned ↔ ownedIn p (e :: c.log))
    (hpending : ∀ p off, pending.lookup p = some off →
      p ∈ owned ∧ Φ p off (e :: period p c.log)) (hcommit : ∀ offsets ok, e = .commit offsets ok →
      ∀ o ∈ offsets, c.pending.lookup o.tp = some (o.next - 1)) :
    Tracks Φ ⟨pending, owned, e :: c.log⟩ := by
  refine ⟨howned, fun p off h => ?_, fun post offsets ok pre h o ho => ?_⟩
  · obtain ⟨ho, hp⟩ := hpending p off h
    refine ⟨ho, ?_⟩
    rw [period, if_pos ((howned p).mp ho)]
    exact hp
  · cases post with
    | nil =>
      obtain ⟨rfl, rfl⟩ := List.cons.inj h
      obtain ⟨hown, hp⟩ := hc.pending o.tp _ (hcommit offsets ok rfl o ho)
      exact ⟨(hc.owned o.tp).mp hown, hp⟩
    | cons e' post => exact hc.commits post offsets ok pre (List.cons.inj h).2 o ho

variable (hΦ : ∀ p off per e, e.passive → Φ p off per → Φ p off (e :: per))
include hΦ

theorem tracks_commitLocked (hc : Tracks Φ c) (only : Option (List TopicPartition)) (ok : Bool) :
    Tracks Φ (commitLocked c only ok) := by
  have hsub : ∀ p off, (commitLocked c only ok).pending.lookup p = some off →
      c.pending.lookup p = some off := by
    intro p off h
    rw [commitLocked_lookup] at h
    split_ifs at h
    exact h
  have hstate : commitLocked c only ok =
      ⟨(commitLocked c only ok).pending, c.owned, (commitLocked c only ok).log⟩ := by
    rw [← commitLocked_owned c only ok]
  rw [hstate, commitLocked_log]
  split_ifs with hnil
  · exact ⟨hc.owned, fun p off h => hc.pending p off (hsub p off h), hc.commits⟩
  · refine tracks_cons hc hc.owned (fun p off h => ?_) ?_
    · obtain ⟨ho, hp⟩ := hc.pending p off (hsub p off h)
      exact ⟨ho, hΦ p off _ _ rfl hp⟩
    · rintro _ _ ⟨⟩ o ho
      exact (mem_commitOffsets.mp ho).1

theorem tracks_onAssigned (hc : Tracks Φ c) (parts : Option (List TopicPartition)) :
    Tracks Φ (onAssigned c parts) := by
  have howned : ∀ p, p ∈ (parts.getD []).foldl (fun owned p => owned.insert p) c.owned ↔
      ownedIn p (.assigned (parts.getD []) :: c.log) := by
    intro p
    rw [mem_foldl_insert, hc.owned]
    simp [ownedIn]
  refine tracks_cons hc howned (fun p off h => ?_) (by simp)
  obtain ⟨ho, hp⟩ := hc.pending p off h
  exact ⟨(mem_foldl_insert _ _).mpr (.inr ho), hΦ p off _ _ rfl hp⟩

/-- `Revoked` after its commit, and `Lost`: the partitions and their offsets are gone. -/
theorem tracks_forget (hc : Tracks Φ c) {parts : List TopicPartition} {e : Event}
    (he : e = .revoked parts ∨ e = .lost parts) : Tracks Φ
      (forgetLocked { c with pending := dropAll c.pending parts, log := e :: c.log } parts) := by
  have howned : ∀ p, p ∈ c.owned.filter (fun p => p ∉ parts) ↔ ownedIn p (e :: c.log) := by
    intro p
    rcases he with rfl | rfl <;> simp [ownedIn, hc.owned, and_comm]
  have hpassive : e.passive := by rcases he with rfl | rfl <;> rfl
  refine tracks_cons hc howned (fun p off h => ?_) ?_
  · rw [lookup_dropAll] at h
    split_ifs at h with hgone
    obtain ⟨ho, hp⟩ := hc.pending p off h
    exact ⟨by simp [hgone, ho], hΦ p off _ _ hpassive hp⟩
  · rcases he with rfl | rfl <;> simp

theorem tracks_onRebalance (hc : Tracks Φ c) (ok : Bool) (event : Rebalance) :
    Tracks Φ (onRebalance c ok event) := by
  cases event with
  | assigned parts => exact tracks_onAssigned hΦ hc parts
  | revoked parts => exact tracks_forget hΦ (tracks_commitLocked hΦ hc parts ok) (.inl rfl)
  | lost parts => exact tracks_forget hΦ hc (.inr rfl)

end Tracks

end GolangBasics.Kafka.Consumer
