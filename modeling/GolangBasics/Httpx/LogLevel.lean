import Mathlib.Data.List.Nodup
import Mathlib.Tactic.SplitIfs

/-! The runtime log level of `libs/httpx`: `Set`, `Reset` and the timers that undo a change.
Every method holds `l.mu`, so each call and each callback is one step. -/
namespace GolangBasics.Httpx
open List Option

/-- A timer of `time.AfterFunc`, with the generation that its callback has captured. `change`
only records which of all changes has made it. -/
structure LevelTimer where
  change : Nat
  gen : Nat
  expiry : Nat
  deriving DecidableEq

/-- `LogLevel`. Levels are `slog`'s numbers; times are in nanoseconds since `time.Time{}`. -/
structure LogLevel where
  base : Int
  lv : Int
  gen : Nat := 0
  expires : Nat := 0
  timer : Option LevelTimer := none

def newLogLevel (base : Int) : LogLevel := { base, lv := base }

def LogLevel.level (l : LogLevel) : Int × Nat := (l.lv, l.expires)

/-- A level with the timers whose callbacks have not run, also those that `Stop` came too late
for. -/
structure LevelState where
  level : LogLevel
  clock : Nat
  armed : List LevelTimer := []
  changes : Nat := 0

namespace LevelState

/-- `l.timer.Stop()`. A timer that has expired may be past stopping: `late`. -/
def stop (s : LevelState) (late : Bool) : LevelState :=
  match s.level.timer with
  | none => s
  | some t =>
    { s with
      level := { s.level with timer := none }
      armed := if late && t.expiry ≤ s.clock then s.armed else s.armed.erase t }

def set (s : LevelState) (level ttl : Int) (late : Bool) : LevelState :=
  let gen := s.level.gen + 1
  let s := s.stop late
  let l := { s.level with gen, expires := 0, lv := level }
  let s := { s with changes := s.changes + 1 }
  if 0 < ttl then
    let t : LevelTimer := ⟨s.changes, gen, s.clock + ttl.toNat⟩
    { s with level := { l with expires := t.expiry, timer := some t }, armed := t :: s.armed }
  else { s with level := l }

def reset (s : LevelState) (late : Bool) : LevelState := s.set s.level.base 0 late

end LevelState

def LogLevel.revert (l : LogLevel) (gen : Nat) : LogLevel :=
  if l.gen ≠ gen then l else { l with lv := l.base, expires := 0, timer := none }

inductive LevelEvent where
  | set (level ttl : Int) (late : Bool)
  | reset (late : Bool)
  | fire (t : LevelTimer)
  | wait (clock : Nat)

/-- One step; `none` where it is not possible. A callback runs once, from its expiry on. -/
def LevelState.next (s : LevelState) : LevelEvent → Option LevelState
  | .set level ttl late => some (s.set level ttl late)
  | .reset late => some (s.reset late)
  | .fire t =>
    if t ∈ s.armed ∧ t.expiry ≤ s.clock then
      some { s with level := s.level.revert t.gen, armed := s.armed.erase t }
    else none
  | .wait clock => if s.clock ≤ clock then some { s with clock } else none

def LevelState.run (s : LevelState) (events : List LevelEvent) : Option LevelState :=
  events.foldlM next s

/-- The last change: its number, its level and ttl, and whether its timer has run. Before the
first one the level is the base level. -/
structure LastChange where
  number : Nat := 0
  level : Int
  ttl : Int := 0
  ran : Bool := false

def LastChange.next (base : Int) (c : LastChange) : LevelEvent → LastChange
  | .set level ttl _ => ⟨c.number + 1, level, ttl, false⟩
  | .reset _ => ⟨c.number + 1, base, 0, false⟩
  | .fire t => if t.change = c.number then { c with ran := true } else c
  | .wait _ => c

def lastChange (base : Int) (events : List LevelEvent) : LastChange :=
  events.foldl (LastChange.next base) { level := base }

def LastChange.Pending (c : LastChange) : Prop := 0 < c.ttl ∧ c.ran = false

instance (c : LastChange) : Decidable c.Pending := inferInstanceAs (Decidable (_ ∧ _))

def LastChange.inEffect (base : Int) (c : LastChange) : Int :=
  if 0 < c.ttl ∧ c.ran then base else c.level

theorem LastChange.inEffect_of_not_ran {base : Int} {c : LastChange} (h : c.ran = false) :
    c.inEffect base = c.level :=
  if_neg fun hc => Bool.false_ne_true (h.symm.trans hc.2)

/-- The state is the one that the last change asks for. -/
structure Tracks (base : Int) (s : LevelState) (c : LastChange) : Prop where
  base_eq : s.level.base = base
  lv_eq : s.level.lv = c.inEffect base
  changes_eq : s.changes = c.number
  gen_eq : s.level.gen = c.number
  /-- No two callbacks are those of one change. -/
  nodup : (s.armed.map LevelTimer.change).Nodup
  captured : ∀ t ∈ s.armed, t.gen = t.change ∧ t.change ≤ c.number
  /-- Only a pending change has a callback left. -/
  pending_of_armed : ∀ t ∈ s.armed, t.change = c.number → c.Pending
  timer_of_pending : c.Pending → ∃ t ∈ s.armed, t.change = c.number ∧ s.level.timer = some t ∧
    s.level.expires = t.expiry ∧ 0 < t.expiry
  idle : ¬ c.Pending → s.level.timer = none ∧ s.level.expires = 0

namespace LevelState
variable (s : LevelState)

theorem armed_stop (late : Bool) : (s.stop late).armed.Sublist s.armed := by
  unfold stop
  split
  · exact List.Sublist.refl _
  · dsimp only
    split_ifs
    · exact List.Sublist.refl _
    · exact erase_sublist

theorem stop_level (late : Bool) : (s.stop late).level = { s.level with timer := none } := by
  unfold stop
  split
  · rename_i h
    rw [← h]
  · rfl

theorem stop_changes (late : Bool) : (s.stop late).changes = s.changes := by
  unfold stop
  split <;> rfl

end LevelState

theorem revert_of_ne {l : LogLevel} {gen : Nat} (h : l.gen ≠ gen) : l.revert gen = l := if_pos h

theorem revert_of_eq {l : LogLevel} {gen : Nat} (h : l.gen = gen) :
    l.revert gen = { l with lv := l.base, expires := 0, timer := none } :=
  if_neg (not_not.mpr h)

namespace Tracks
variable {base : Int} {s : LevelState} {c : LastChange}

theorem start (base : Int) (clock : Nat) :
    Tracks base ⟨newLogLevel base, clock, [], 0⟩ { level := base } where
  base_eq := rfl
  lv_eq := rfl
  changes_eq := rfl
  gen_eq := rfl
  nodup := nodup_nil
  captured := nofun
  pending_of_armed := nofun
  timer_of_pending := fun h => absurd h.1 (Int.lt_irrefl 0)
  idle := fun _ => ⟨rfl, rfl⟩

/-- A change takes effect at once, and the timers of earlier ones keep their numbers. -/
theorem set (h : Tracks base s c) (level ttl : Int) (late : Bool) :
    Tracks base (s.set level ttl late) ⟨c.number + 1, level, ttl, false⟩ := by
  have hsub := s.armed_stop late
  have hlevel := s.stop_level late
  have hchanges := (s.stop_changes late).trans h.changes_eq
  have hold : ∀ t ∈ (s.stop late).armed, t.gen = t.change ∧ t.change ≤ c.number :=
    fun t ht => h.captured t (hsub.subset ht)
  have hnodup := h.nodup.sublist (hsub.map LevelTimer.change)
  have heffect : LastChange.inEffect base ⟨c.number + 1, level, ttl, false⟩ = level :=
    LastChange.inEffect_of_not_ran rfl
  unfold LevelState.set
  dsimp only
  split_ifs with httl
  · constructor
    case base_eq => rw [hlevel]; exact h.base_eq
    case lv_eq => exact heffect.symm
    case changes_eq => exact congrArg (· + 1) hchanges
    case gen_eq => exact congrArg (· + 1) h.gen_eq
    case nodup =>
      refine nodup_cons.mpr ⟨fun hmem => ?_, hnodup⟩
      obtain ⟨t, ht, hchange⟩ := List.mem_map.mp hmem
      have hle := (hold t ht).2
      rw [hchange, hchanges] at hle
      exact absurd hle (Nat.not_succ_le_self _)
    case captured =>
      refine forall_mem_cons.mpr ⟨⟨?_, ?_⟩, fun t ht => ?_⟩
      · rw [hchanges, h.gen_eq]
      · exact Nat.le_of_eq (congrArg (· + 1) hchanges)
      · exact ⟨(hold t ht).1, Nat.le_succ_of_le (hold t ht).2⟩
    case pending_of_armed => exact fun _ _ _ => ⟨httl, rfl⟩
    case timer_of_pending =>
      refine fun _ => ⟨_, mem_cons_self, congrArg (· + 1) hchanges, rfl, rfl, ?_⟩
      dsimp only
      omega
    case idle => exact fun hidle => absurd ⟨httl, rfl⟩ hidle
  · have hidle : ¬ LastChange.Pending ⟨c.number + 1, level, ttl, false⟩ := fun hp => httl hp.1
    constructor
    case base_eq => rw [hlevel]; exact h.base_eq
    case lv_eq => exact heffect.symm
    case changes_eq => exact congrArg (· + 1) hchanges
    case gen_eq => exact congrArg (· + 1) h.gen_eq
    case nodup => exact hnodup
    case captured => exact fun t ht => ⟨(hold t ht).1, Nat.le_succ_of_le (hold t ht).2⟩
    case pending_of_armed =>
      intro t ht hchange
      have hle := (hold t ht).2
      rw [hchange] at hle
      exact absurd hle (Nat.not_succ_le_self _)
    case timer_of_pending => exact fun hp => absurd hp hidle
    case idle =>
      refine fun _ => ⟨?_, rfl⟩
      rw [hlevel]

/-- The callback of an earlier change finds another generation. -/
theorem revert_earlier (h : Tracks base s c) {t : LevelTimer} (ht : t ∈ s.armed)
    (hne : t.change ≠ c.number) : s.level.revert t.gen = s.level := by
  refine revert_of_ne fun hgen => hne ?_
  rw [← (h.captured t ht).1, ← hgen, h.gen_eq]

theorem revert_last (h : Tracks base s c) {t : LevelTimer} (ht : t ∈ s.armed)
    (heq : t.change = c.number) :
    s.level.revert t.gen = { s.level with lv := base, expires := 0, timer := none } := by
  rw [revert_of_eq (by rw [h.gen_eq, (h.captured t ht).1, heq]), ← h.base_eq]

theorem fire (h : Tracks base s c) {t : LevelTimer} (ht : t ∈ s.armed) :
    Tracks base { s with level := s.level.revert t.gen, armed := s.armed.erase t }
      (c.next base (.fire t)) := by
  have hnodup : ((s.armed.erase t).map LevelTimer.change).Nodup :=
    h.nodup.sublist (erase_sublist.map LevelTimer.change)
  have hrest {t' : LevelTimer} (ht' : t' ∈ s.armed.erase t) : t' ∈ s.armed :=
    mem_of_mem_erase ht'
  unfold LastChange.next
  dsimp only
  split_ifs with heq
  · -- the callback of the last change: no other callback of it is left
    have hpending := h.pending_of_armed t ht heq
    have hgone : ∀ t' ∈ s.armed.erase t, t'.change ≠ c.number := by
      intro t' ht' hchange
      have hsame : t' = t :=
        inj_on_of_nodup_map h.nodup (hrest ht') ht (hchange.trans heq.symm)
      rw [hsame] at ht'
      exact (List.Nodup.not_mem_erase h.nodup.of_map) ht'
    rw [h.revert_last ht heq]
    exact {
      base_eq := h.base_eq
      lv_eq := (if_pos ⟨hpending.1, rfl⟩).symm
      changes_eq := h.changes_eq
      gen_eq := h.gen_eq
      nodup := hnodup
      captured := fun t' ht' => h.captured t' (hrest ht')
      pending_of_armed := fun t' ht' hchange => absurd hchange (hgone t' ht')
      timer_of_pending := fun hp => absurd hp.2 Bool.noConfusion
      idle := fun _ => ⟨rfl, rfl⟩ }
  · rw [h.revert_earlier ht heq]
    exact { h with
      nodup := hnodup
      captured := fun t' ht' => h.captured t' (hrest ht')
      pending_of_armed := fun t' ht' => h.pending_of_armed t' (hrest ht')
      timer_of_pending := by
        intro hp
        obtain ⟨t', ht', hchange, htimer⟩ := h.timer_of_pending hp
        have hne : t' ≠ t := fun hsame => heq (hsame ▸ hchange)
        exact ⟨t', (mem_erase_of_ne hne).mpr ht', hchange, htimer⟩ }

theorem next (h : Tracks base s c) {e : LevelEvent} {s' : LevelState} (hnext : s.next e = some s') :
    Tracks base s' (c.next base e) := by
  cases e with
  | set level ttl late =>
    obtain rfl := some.inj hnext
    exact h.set level ttl late
  | reset late =>
    obtain rfl := some.inj hnext
    rw [LevelState.reset, h.base_eq]
    exact h.set base 0 late
  | fire t =>
    simp only [LevelState.next] at hnext
    split_ifs at hnext with hfire
    obtain rfl := some.inj hnext
    exact h.fire hfire.1
  | wait clock =>
    simp only [LevelState.next] at hnext
    split_ifs at hnext
    obtain rfl := some.inj hnext
    exact { h with }

theorem run {events : List LevelEvent} {s' : LevelState} (h : Tracks base s c)
    (hrun : s.run events = some s') : Tracks base s' (events.foldl (LastChange.next base) c) := by
  induction events generalizing s c with
  | nil =>
    obtain rfl := some.inj hrun
    exact h
  | cons e events ih =>
    obtain ⟨s₁, hnext, hrest⟩ := bind_eq_some_iff.mp hrun
    exact ih (h.next hnext) hrest

end Tracks

/-- After any calls and callbacks the level is that of the last change, or the base level once
the change's own timer has run. The callbacks that are still to come of other changes do
nothing, and the one of a pending change, which is there to run, undoes it. -/
theorem logLevel_reverts {base : Int} {clock : Nat} {events : List LevelEvent} {s : LevelState}
    (hrun : LevelState.run ⟨newLogLevel base, clock, [], 0⟩ events = some s) :
    s.level.lv = (lastChange base events).inEffect base ∧
      (s.level.expires ≠ 0 ↔ (lastChange base events).Pending) ∧
      (∀ t ∈ s.armed, t.change ≠ (lastChange base events).number →
        s.level.revert t.gen = s.level) ∧
      ((lastChange base events).Pending → ∃ t ∈ s.armed,
        t.change = (lastChange base events).number ∧ s.level.expires = t.expiry ∧
          (s.level.revert t.gen).level = (base, 0)) := by
  have h : Tracks base s (lastChange base events) := (Tracks.start base clock).run hrun
  refine ⟨h.lv_eq, ⟨fun hne => ?_, fun hp => ?_⟩, fun t ht => h.revert_earlier ht, fun hp => ?_⟩
  · by_contra hidle
    exact hne (h.idle hidle).2
  · obtain ⟨t, -, -, -, hexpires, hpos⟩ := h.timer_of_pending hp
    omega
  · obtain ⟨t, ht, hchange, -, hexpires, -⟩ := h.timer_of_pending hp
    refine ⟨t, ht, hchange, hexpires, ?_⟩
    rw [h.revert_last ht hchange]
    rfl

/-- A callback that `Stop` came too late for runs between two changes with a ttl. -/
theorem logLevel_reverts_late :
    ∃ s, LevelState.run ⟨newLogLevel 0, 5, [], 0⟩
        [.set (-4) 10 false, .wait 15, .set 4 10 true, .fire ⟨1, 1, 15⟩] = some s ∧
      s.level.level = (4, 25) ∧ (s.level.revert 2).level = (0, 0) := by
  obtain ⟨s, hrun, hlast⟩ : ∃ s, LevelState.run ⟨newLogLevel 0, 5, [], 0⟩
      [.set (-4) 10 false, .wait 15, .set 4 10 true, .fire ⟨1, 1, 15⟩] = some s ∧
      s.level.level = (4, 25) ∧ s.armed.map (·.gen) = [2] := ⟨_, rfl, rfl, rfl⟩
  obtain ⟨-, -, -, hundone⟩ := logLevel_reverts hrun
  obtain ⟨t, ht, -, -, hlevel⟩ := hundone (by decide)
  have hgen : t.gen ∈ s.armed.map (·.gen) := List.mem_map_of_mem ht
  rw [hlast.2, mem_singleton] at hgen
  rw [hgen] at hlevel
  exact ⟨s, hrun, hlast.1, hlevel⟩

end GolangBasics.Httpx
