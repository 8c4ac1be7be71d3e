import GolangBasics.Resilient.Probes
import GolangBasics.Resilient.WindowHistory

/-! What a recorder sums up in the locked section of `record`. The section trusts a
generation that was checked before the lock was taken, so a slow recorder of an earlier
generation empties the window of the current one. -/
namespace GolangBasics.Resilient
open Conc Threads List Option

def Breaker.unit (b : Breaker) : Nat := (newWindow b.length).slot

def Added.entry (x : Added) : Entry := ⟨x.now, 1, if x.failed then 1 else 0⟩

def Added.keeps (unit : Nat) (new old : Added) : Bool :=
  old.gen = new.gen && spares unit new.now old.now

/-- The outcomes of a generation in the last ten slots at `now`, of those added so far. -/
def Breaker.outcomes (b : Breaker) (g now : Nat) (added : List Added) : List Added :=
  added.filter fun x => x.gen = g && inWindow b.unit now x.now

/-- No outcome of the generation in the last ten slots was followed by one of another
generation, or by one whose slot of time has taken its place in the ring. -/
def Breaker.Undisturbed (b : Breaker) (g now : Nat) (added : List Added) : Prop :=
  added.Pairwise fun new old => old.gen = g → inWindow b.unit now old.now →
    new.gen = g ∧ (ring (old.now / b.unit) = ring (new.now / b.unit) →
      old.now / b.unit = new.now / b.unit)

/-- The window holds what the history leaves of itself, all of one generation. -/
structure Remembers (b : Breaker) (win : Window) (winGen : Nat) (added : List Added) : Prop where
  slot : win.slot = b.unit
  holds : win.Holds ((survivors (Added.keeps b.unit) added).map Added.entry)
  gen : ∀ x ∈ survivors (Added.keeps b.unit) added, x.gen = winGen

variable {b : Breaker} {i : Nat} {m m' : Shared} {l l' : Pc} {c c' : Pool Shared Pc}
  {win : Window} {winGen : Nat} {added : List Added}

/-- The outcomes the window had before are left by a reset exactly when the generation is the
same, and by `add` when their place is not taken. -/
theorem lockedSection_remembers (h : Remembers b win winGen added) (x : Added) :
    Remembers b (lockedSection win winGen x).1 x.gen (x :: added) := by
  have hslot : (lockedSection win winGen x).1.slot = b.unit := by
    unfold lockedSection
    split <;> exact h.slot
  have hgen : ∀ y ∈ survivors (Added.keeps b.unit) (x :: added), y.gen = x.gen := by
    intro y hy
    rcases keeps_of_mem_survivors hy with rfl | hkeep
    · rfl
    · simp only [Added.keeps, Bool.and_eq_true, decide_eq_true_eq] at hkeep
      exact hkeep.1
  refine ⟨hslot, ?_, hgen⟩
  unfold lockedSection survivors
  rw [map_cons]
  by_cases hsame : winGen = x.gen
  · have hadd := h.holds.add x.entry
    rw [List.filter_map, h.slot] at hadd
    have hfilter : (survivors (Added.keeps b.unit) added).filter (Added.keeps b.unit x) =
        (survivors (Added.keeps b.unit) added).filter
          ((fun old => spares b.unit x.now old.now) ∘ Added.entry) := by
      refine filter_congr fun y hy => ?_
      simp [Added.keeps, Added.entry, h.gen y hy, hsame]
    rw [hfilter, if_neg (not_not.mpr hsame)]
    exact hadd
  · have hnone : (survivors (Added.keeps b.unit) added).filter (Added.keeps b.unit x) = [] := by
      refine filter_eq_nil_iff.mpr fun y hy => ?_
      simp [Added.keeps, h.gen y hy, hsame]
    rw [hnone, if_pos hsame]
    exact (holds_reset win).add x.entry

theorem sum_entries (xs : List Added) (p : Entry → Bool) :
    (((xs.map Added.entry).filter p).map Entry.a).sum = (xs.filter (p ∘ Added.entry)).length ∧
      (((xs.map Added.entry).filter p).map Entry.b).sum =
        (xs.filter (p ∘ Added.entry)).countP (·.failed) := by
  rw [List.filter_map]
  generalize xs.filter (p ∘ Added.entry) = ys
  induction ys with
  | nil => simp
  | cons y ys ih =>
    simp only [map_cons, sum_cons, length_cons, countP_cons, ih, Added.entry]
    constructor
    · omega
    · split <;> omega

/-- The sums of the locked section are over what is left of the generation's outcomes. -/
theorem lockedSection_sums (h : Remembers b win winGen added) (x : Added) :
    let counted := b.outcomes x.gen x.now (survivors (Added.keeps b.unit) (x :: added))
    (lockedSection win winGen x).2.2 =
      ((counted.length : Int), (counted.countP (·.failed) : Int)) := by
  have hnew := lockedSection_remembers h x
  have hsum : (lockedSection win winGen x).2.2 = (lockedSection win winGen x).1.sum x.now := rfl
  have hcounted : (survivors (Added.keeps b.unit) (x :: added)).filter
      ((fun e => inWindow b.unit x.now e.now) ∘ Added.entry) =
        b.outcomes x.gen x.now (survivors (Added.keeps b.unit) (x :: added)) := by
    refine filter_congr fun y hy => ?_
    simp [Added.entry, hnew.gen y hy]
  intro counted
  rw [hsum, hnew.holds.sum, hnew.slot, (sum_entries _ _).1, (sum_entries _ _).2, hcounted]

/-- Nothing is missing from the sums exactly when no outcome was disturbed. -/
theorem outcomes_survivors_iff (g now : Nat) (added : List Added) :
    let outcomes := b.outcomes g now added
    let counted := b.outcomes g now (survivors (Added.keeps b.unit) added)
    counted.length = outcomes.length ∧
      counted.countP (·.failed) = outcomes.countP (·.failed) ↔ b.Undisturbed g now added := by
  intro outcomes counted
  have hsub : counted.Sublist outcomes := filter_survivors_sublist _ _
  have hlists : counted.length = outcomes.length ∧
      counted.countP (·.failed) = outcomes.countP (·.failed) ↔ counted = outcomes :=
    ⟨fun h => hsub.eq_of_length h.1, fun h => by rw [h]; exact ⟨rfl, rfl⟩⟩
  rw [hlists]
  refine (filter_survivors_eq_iff _ _).trans (iff_of_eq (congrArg (List.Pairwise · added) ?_))
  funext new old
  simp only [Added.keeps, spares, Bool.and_eq_true, decide_eq_true_eq, eq_iff_iff]
  constructor
  · intro h hgen hin
    obtain ⟨hsame, hspare⟩ := h ⟨hgen, hin⟩
    exact ⟨hsame ▸ hgen, hspare⟩
  · rintro h ⟨hgen, hin⟩
    obtain ⟨hsame, hspare⟩ := h hgen hin
    exact ⟨hgen.trans hsame.symm, hspare⟩

structure Sums (b : Breaker) (c c' : Pool Shared Pc) (i : Nat) (t : Ticket) (failed : Bool)
    (now : Nat) (requests failures : Int) : Prop where
  inside : ∃ s, c.threads[i]? = some (.recordLock t failed s now)
  leaves : b.requests.next c (.step i .go) = some c'
  summed : ∃ s, c'.threads[i]? = some (.recordTrip t failed s now requests failures)

theorem compareAndSwap_window {s : Ptr} {next : Snapshot} (h : m.compareAndSwap s next = some m') :
    m'.win = m.win ∧ m'.winGen = m.winGen ∧ m'.added = m.added := by
  unfold Shared.compareAndSwap at h
  split at h
  · cases h
    exact ⟨rfl, rfl, rfl⟩
  · cases h

theorem swap_window {s : Ptr} {next : Snapshot} (h : m.swap i s next = some m') :
    m'.win = m.win ∧ m'.winGen = m.winGen ∧ m'.added = m.added := by
  obtain ⟨m₁, hcas, rfl⟩ := map_eq_some_iff.mp h
  have hsame := compareAndSwap_window hcas
  exact hsame

theorem step_window {x : Choice} (h : b.step i l x m = some (l', m')) :
    (m'.win = m.win ∧ m'.winGen = m.winGen ∧ m'.added = m.added) ∨
      ∃ t failed s now, l = .recordLock t failed s now ∧ x = .go ∧
        let sums := lockedSection m.win m.winGen ⟨s.val.gen, now, failed⟩
        l' = .recordTrip t failed s now sums.2.2.1 sums.2.2.2 ∧
        m' = { m with
          win := sums.1
          winGen := s.val.gen
          added := ⟨s.val.gen, now, failed⟩ :: m.added } := by
  cases l with
  | recordLock t failed s now =>
    cases x <;> cases h
    exact .inr ⟨t, failed, s, now, rfl, rfl, rfl, rfl⟩
  | rejected | recorded => cases x <;> cases h
  | _ =>
    -- elsewhere at most the snapshot is replaced
    refine .inl ?_
    cases x <;> simp only [Breaker.step, reduceCtorEq] at h
    all_goals
      repeat' split at h
    all_goals
      cases h
      first
      | exact ⟨rfl, rfl, rfl⟩
      | rename_i hswap
        have hsame := swap_window hswap
        exact hsame
      | rename_i hcas
        have hsame := compareAndSwap_window hcas
        exact hsame

theorem remembers_of_reachable (hc : b.requests.Reachable b.init c) :
    Remembers b c.shared.win c.shared.winGen c.shared.added := by
  refine ReachableIf.invariant (I := fun c => Remembers b c.shared.win c.shared.winGen
    c.shared.added) hc ⟨rfl, holds_new b.length, by simp [Breaker.init, survivors]⟩ ?_ ?_ ?_
  · intro c l h _
    exact h
  · intro c i x l l' m h _ _ hstep
    rcases step_window hstep with ⟨hwin, hgen, hadded⟩ | ⟨t, failed, s, now, -, -, -, rfl⟩
    · simp only [hwin, hgen, hadded]
      exact h
    · exact lockedSection_remembers h ⟨s.val.gen, now, failed⟩
  · intro c d m h _ henv
    cases henv
    exact h

/-- What a step through the locked section is: the ticket's generation is the one checked
before the lock, and the sums are over what is left of its outcomes. -/
theorem Sums.spec {t : Ticket} {failed : Bool} {now : Nat} {requests failures : Int}
    (hc : b.requests.Reachable b.init c) (h : Sums b c c' i t failed now requests failures) :
    let counted := b.outcomes t.gen now
      (survivors (Added.keeps b.unit) (⟨t.gen, now, failed⟩ :: c.shared.added))
    requests = counted.length ∧ failures = counted.countP (·.failed) := by
  obtain ⟨⟨s, hs⟩, hnext, s', hs'⟩ := h
  have hgen : s.val.gen = t.gen := (knows_of_reachable hc i _ hs).2.2.1
  have hsums := lockedSection_sums (remembers_of_reachable hc) ⟨t.gen, now, failed⟩
  simp only [Threads.next, hs, Breaker.requests, Breaker.step, map_some, Option.some.injEq] at hnext
  subst hnext
  rw [Pool.set_self hs] at hs'
  simp only [Option.some.injEq, Pc.recordTrip.injEq, hgen] at hs'
  obtain ⟨-, -, -, -, rfl, rfl⟩ := hs'
  intro counted
  exact Prod.mk.inj hsums

/-- A recorder runs its locked section in the generation it was admitted in, and no recorder
of that generation that read the clock in a later slot of time was before it. -/
def Breaker.InOrder (b : Breaker) (c : Pool Shared Pc) (a : Act Pc Choice Nat) : Prop :=
  ∀ i t failed s now, a = .step i .go → c.threads[i]? = some (.recordLock t failed s now) →
    c.shared.cur.val.gen = t.gen ∧
      ∀ x ∈ c.shared.added, x.gen = t.gen → x.now / b.unit ≤ now / b.unit

/-- The history of a run in order: generations and slots of time never go back. -/
structure Sorted (b : Breaker) (c : Pool Shared Pc) : Prop where
  knows : Pool.Each (fun _ => b.Knows) c
  past : ∀ x ∈ c.shared.added, x.gen ≤ c.shared.cur.val.gen
  sorted : c.shared.added.Pairwise fun new old =>
    old.gen ≤ new.gen ∧ (old.gen = new.gen → old.now / b.unit ≤ new.now / b.unit)

theorem sorted_of_inOrder (hc : b.requests.ReachableIf b.InOrder b.init c) : Sorted b c := by
  refine ReachableIf.invariant hc ⟨by simp [Pool.Each], by simp [Breaker.init],
    by simp [Breaker.init]⟩ ?_ ?_ ?_
  · intro c l h hl
    obtain rfl : l = .allow := by simpa [Breaker.requests] using hl
    exact ⟨Pool.each_spawn h.knows trivial, h.past, h.sorted⟩
  · intro c i x l l' m h hok hl hstep
    have hspec := step_spec (h.knows i l hl) hstep
    have hgrows := (hspec.effect.grows hspec.clock).gen
    have hknows := knows_step h.knows hspec
    rcases step_window hstep with ⟨-, -, hadded⟩ | ⟨t, failed, s, now, rfl, rfl, -, rfl⟩
    · refine ⟨hknows, ?_, ?_⟩ <;> simp only [hadded]
      · exact fun x hx => le_trans (h.past x hx) hgrows
      · exact h.sorted
    · have hgen : s.val.gen = t.gen := (h.knows i _ hl).2.2.1
      obtain ⟨hcur, hslots⟩ := hok i t failed s now rfl hl
      refine ⟨hknows, fun x hx => ?_, pairwise_cons.mpr ⟨fun x hx => ?_, h.sorted⟩⟩
      · rcases mem_cons.mp hx with rfl | hx
        · exact le_of_eq (hgen.trans hcur.symm)
        · exact h.past x hx
      · have hpast := h.past x hx
        refine ⟨by simp only; omega, fun heq => ?_⟩
        exact hslots x hx (heq.trans hgen)
  · intro c d m h _ henv
    cases henv
    exact ⟨Pool.each_env h.knows fun _ _ hk => hk.grows ⟨Nat.le_add_right _ _, .inl rfl⟩,
      h.past, h.sorted⟩

/-- In a sorted history an outcome that is still in the window was never disturbed. -/
theorem undisturbed_of_sorted {g now : Nat}
    (hsorted : added.Pairwise fun new old =>
      old.gen ≤ new.gen ∧ (old.gen = new.gen → old.now / b.unit ≤ new.now / b.unit))
    (hlast : ∀ x ∈ added, x.gen ≤ g ∧ (x.gen = g → x.now / b.unit ≤ now / b.unit)) :
    b.Undisturbed g now added := by
  refine hsorted.imp_of_mem fun {new old} hnew _ hle hgen hin => ?_
  obtain ⟨hpast, hslot⟩ := hlast new hnew
  have hsame : new.gen = g := by omega
  have hspare := spares_of_inWindow hin (hle.2 (hgen.trans hsame.symm)) (hslot hsame)
  exact ⟨hsame, of_decide_eq_true hspare⟩

theorem Sorted.undisturbed {t : Ticket} {failed : Bool} {now : Nat} {s : Ptr} (h : Sorted b c)
    (hi : c.threads[i]? = some (.recordLock t failed s now)) (hok : b.InOrder c (.step i .go)) :
    b.Undisturbed t.gen now (⟨t.gen, now, failed⟩ :: c.shared.added) := by
  obtain ⟨hcur, hslots⟩ := hok i t failed s now rfl hi
  have hpast : ∀ x ∈ c.shared.added, x.gen ≤ t.gen := fun x hx => hcur ▸ h.past x hx
  refine undisturbed_of_sorted (pairwise_cons.mpr ⟨fun x hx => ?_, h.sorted⟩) ?_
  · exact ⟨hpast x hx, hslots x hx⟩
  · intro x hx
    rcases mem_cons.mp hx with rfl | hx
    · exact ⟨le_refl _, fun _ => le_refl _⟩
    · exact ⟨hpast x hx, hslots x hx⟩

/-- A recorder that leaves the locked section has counted only outcomes of its ticket's
generation in the last ten slots, each at most once. It has counted all of them exactly when
none was disturbed, and that is so in every run whose recorders reach the section in the
order of their generations and clock readings. -/
theorem record_sums (b : Breaker) (c c' : Pool Shared Pc) (i : Nat) (t : Ticket) (failed : Bool)
    (now : Nat) (requests failures : Int)
    (hsums : Sums b c c' i t failed now requests failures) :
    let added := ⟨t.gen, now, failed⟩ :: c.shared.added
    let outcomes := b.outcomes t.gen now added
    (b.requests.Reachable b.init c →
      (∃ counted : List Added, counted.Sublist outcomes ∧ requests = counted.length ∧
        failures = counted.countP (·.failed)) ∧
      (requests = outcomes.length ∧ failures = outcomes.countP (·.failed) ↔
        b.Undisturbed t.gen now added)) ∧
    (b.requests.ReachableIf b.InOrder b.init c → b.InOrder c (.step i .go) →
      requests = outcomes.length ∧ failures = outcomes.countP (·.failed)) := by
  intro added outcomes
  have hexact : b.requests.Reachable b.init c →
      (requests = outcomes.length ∧ failures = outcomes.countP (·.failed) ↔
        b.Undisturbed t.gen now added) := by
    intro hc
    obtain ⟨hrequests, hfailures⟩ := hsums.spec hc
    refine Iff.trans ?_ (outcomes_survivors_iff t.gen now added)
    rw [hrequests, hfailures]
    simp only [Int.natCast_inj, added, outcomes]
  refine ⟨fun hc => ⟨?_, hexact hc⟩, fun hc hok => ?_⟩
  · obtain ⟨hrequests, hfailures⟩ := hsums.spec hc
    exact ⟨_, filter_survivors_sublist _ _, hrequests, hfailures⟩
  · obtain ⟨s, hi⟩ := hsums.inside
    exact (hexact hc.reachable).mpr ((sorted_of_inOrder hc).undisturbed hi hok)

def oneProbe : Breaker where
  reaches requests failures := requests ≤ 2 * failures
  minRequests := 1
  openTimeout := 5
  maxProbes := 1
  length := 100

def Breaker.inOrder (b : Breaker) (c : Pool Shared Pc) : Act Pc Choice Nat → Bool
  | .step i .go =>
    match c.threads[i]? with
    | some (.recordLock t _ _ now) => c.shared.cur.val.gen = t.gen ∧
        ∀ x ∈ c.shared.added, x.gen = t.gen → x.now / b.unit ≤ now / b.unit
    | _ => true
  | _ => true

theorem inOrder_of_inOrder {a : Act Pc Choice Nat} (h : b.inOrder c a) : b.InOrder c a := by
  rintro i t failed s now rfl hi
  simpa only [Breaker.inOrder, hi, decide_eq_true_eq] using h

/-- Request 0 opens the breaker and request 1 closes it again as a probe. Request 2 succeeds in
generation 3, and the recorder of request 3 is at the lock with a failure. -/
def reopened : List (Act Pc Choice Nat) :=
  [.spawn .allow, .step 0 .go, .step 0 (.finish .failure), .step 0 .go, .step 0 .go, .step 0 .go,
    .step 0 .go, .env 5,
    .spawn .allow, .step 1 .go, .step 1 .go, .step 1 .go, .step 1 .go, .step 1 .go, .step 1 .go,
    .step 1 (.finish .success), .step 1 .go, .step 1 .go,
    .spawn .allow, .step 2 .go, .step 2 (.finish .success), .step 2 .go, .step 2 .go, .step 2 .go,
    .spawn .allow, .step 3 .go, .step 3 (.finish .failure), .step 3 .go, .step 3 .go]

theorem record_sums_reopened :
    ∃ c c', oneProbe.requests.runIf oneProbe.inOrder ⟨oneProbe.init, []⟩ reopened = some c ∧
      Sums oneProbe c c' 3 ⟨3, false⟩ true 5 2 1 ∧ c.shared.added.length = 2 ∧
      oneProbe.Undisturbed 3 5 (⟨3, 5, true⟩ :: c.shared.added) ∧
      (2 : Int) = (oneProbe.outcomes 3 5 (⟨3, 5, true⟩ :: c.shared.added)).length := by
  obtain ⟨c, hrun, hin, hok, hadded, c', hnext, hsummed⟩ : ∃ c,
      oneProbe.requests.runIf oneProbe.inOrder ⟨oneProbe.init, []⟩ reopened = some c ∧
      c.threads[3]? = some (.recordLock ⟨3, false⟩ true ⟨3, { state := .closed, gen := 3 }⟩ 5) ∧
      oneProbe.inOrder c (.step 3 .go) ∧ c.shared.added.length = 2 ∧ ∃ c',
      oneProbe.requests.next c (.step 3 .go) = some c' ∧ c'.threads[3]? =
        some (.recordTrip ⟨3, false⟩ true ⟨3, { state := .closed, gen := 3 }⟩ 5 2 1) :=
    ⟨_, rfl, rfl, rfl, rfl, _, rfl, rfl⟩
  have hc := (ReachableIf.runIf (T := oneProbe.requests) .init hrun).imp
    fun _ _ _ h => inOrder_of_inOrder h
  have hsums : Sums oneProbe c c' 3 ⟨3, false⟩ true 5 2 1 := ⟨⟨_, hin⟩, hnext, ⟨_, hsummed⟩⟩
  obtain ⟨hexact, horder⟩ := record_sums oneProbe c c' 3 ⟨3, false⟩ true 5 2 1 hsums
  have hcount := horder hc (inOrder_of_inOrder hok)
  exact ⟨c, c', hrun, hsums, hadded, (hexact hc.reachable).2.mp hcount, hcount.1⟩

/-- The recorder of request 0 stalls before the lock, in generation 0. Request 1 opens the
breaker, request 2 closes it again as a probe, and request 3 succeeds in generation 3. Then
recorder 0 takes the lock, and request 4 succeeds. -/
def lateRecorder : List (Act Pc Choice Nat) :=
  [.spawn .allow, .step 0 .go, .step 0 (.finish .failure), .step 0 .go, .step 0 .go,
    .spawn .allow, .step 1 .go, .step 1 (.finish .failure), .step 1 .go, .step 1 .go, .step 1 .go,
    .step 1 .go, .env 5,
    .spawn .allow, .step 2 .go, .step 2 .go, .step 2 .go, .step 2 .go, .step 2 .go, .step 2 .go,
    .step 2 (.finish .success), .step 2 .go, .step 2 .go,
    .spawn .allow, .step 3 .go, .step 3 (.finish .success), .step 3 .go, .step 3 .go, .step 3 .go,
    .step 0 .go,
    .spawn .allow, .step 4 .go, .step 4 (.finish .success), .step 4 .go, .step 4 .go]

/-- Two outcomes of generation 3 have been added in the last ten slots, and the second
recorder sums up one: the recorder of generation 0 has emptied the window in between. -/
theorem lateRecorder_forgets :
    ∃ c c', oneProbe.requests.run ⟨oneProbe.init, []⟩ lateRecorder = some c ∧
      c.shared.cur.val.state = .closed ∧ c.shared.cur.val.gen = 3 ∧
      Sums oneProbe c c' 4 ⟨3, false⟩ false 5 1 0 ∧
      (oneProbe.outcomes 3 5 (⟨3, 5, false⟩ :: c.shared.added)).length = 2 := by
  exact ⟨_, _, rfl, rfl, rfl, ⟨⟨_, rfl⟩, rfl, ⟨_, rfl⟩⟩, rfl⟩

end GolangBasics.Resilient
