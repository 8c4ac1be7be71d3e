import GolangBasics.Valkey.Deadlines

/-! The shared loads while time passes, clients go away and callers join: every context keeps its
deadline, and no caller outlives a load it waits for. -/
namespace GolangBasics.Valkey.Deadlines
open Conc List Option

variable {V : Type}

/-- A load with the first deadline outlives every caller with the second. -/
def Shelters (load caller : Option Nat) : Prop :=
  ∀ x, load = some x → ∃ y, caller = some y ∧ y ≤ x

def State.ended (s : State V) (q : Nat) : Prop := ∃ ctx, s.contexts q = some ctx ∧ ctx.ended s.clock

structure Inv (s : State V) : Prop where
  sheltered : ∀ replica f q, s.flights replica = some f → q ∈ f.callers →
    ∃ ctx, s.contexts q = some ctx ∧ Shelters f.context.deadline ctx.deadline
  detached : ∀ replica f, s.flights replica = some f → f.context.cancelled = false
  runner : ∀ replica f p, s.flights replica = some f → f.runner = some p →
    s.loads p = some f.context
  inbox : ∀ q err, s.inbox q = some (.error err) → s.ended q

/-- The load of the replica is the one `p` runs, and its context is over if it has failed. -/
def Runs (p replica : Nat) (failed : Prop) (s : State V) : Prop :=
  ∃ f, s.flights replica = some f ∧ f.runner = some p ∧ (failed → f.context.ended s.clock)

variable {replica : Nat}

theorem Runs.mono {p : Nat} {a b : Prop} {s : State V} (h : Runs p replica a s) (hab : b → a) :
    Runs p replica b s := by
  obtain ⟨f, hf, hrunner, hended⟩ := h
  exact ⟨f, hf, hrunner, fun hb => hended (hab hb)⟩

def Ages (s s' : State V) : Prop :=
  ∀ q ctx, s.contexts q = some ctx → ∃ ctx', s'.contexts q = some ctx' ∧
    ctx'.deadline = ctx.deadline ∧ (ctx.ended s.clock → ctx'.ended s'.clock)

theorem Ages.ended {s s' : State V} {q : Nat} (h : Ages s s') (hq : s.ended q) : s'.ended q := by
  obtain ⟨ctx, hctx, hended⟩ := hq
  obtain ⟨ctx', hctx', -, hended'⟩ := h q ctx hctx
  exact ⟨ctx', hctx', hended' hended⟩

theorem Ages.of_eq {s s' : State V} (hctx : s'.contexts = s.contexts) (hle : s.clock ≤ s'.clock) :
    Ages s s' :=
  fun _ ctx hq => ⟨ctx, by rw [hctx]; exact hq, rfl, fun hended => Context.ended_mono hended hle⟩

theorem ages_env {s s' : State V} {e : Env} (h : env e s = some s') : Ages s s' := by
  cases e with
  | tick d =>
    obtain rfl := some.inj h
    exact Ages.of_eq rfl (Nat.le_add_right ..)
  | cancel p =>
    obtain ⟨ctx₀, hctx₀, rfl⟩ := map_eq_some_iff.mp h
    intro q ctx hctx
    by_cases hqp : q = p
    · subst hqp
      obtain rfl : ctx₀ = ctx := some.inj (hctx₀.symm.trans hctx)
      exact ⟨_, Function.update_self .., Context.deadline_cancel, Context.ended_cancel⟩
    · exact ⟨ctx, by simpa [Function.update_of_ne hqp] using hctx, rfl, id⟩

theorem ages_accept {s s' : State V} {p : Nat} {call : Call} (h : accept p call s = some s') :
    Ages s s' := by
  cases call with
  | aside replica deadline =>
    simp only [accept] at h
    split at h
    · cases h
    · rename_i hnew
      obtain rfl := some.inj h
      intro q ctx hctx
      have hqp : q ≠ p := by
        rintro rfl
        simp [hctx] at hnew
      exact ⟨ctx, by simpa [Function.update_of_ne hqp] using hctx, rfl, id⟩
  | flight replica =>
    obtain ⟨f, -, h⟩ := bind_eq_some_iff.mp h
    split at h
    · cases h
    · obtain rfl := some.inj h
      exact Ages.of_eq rfl (Nat.le_refl _)

/-- When the callers and the loads of the new state come from those of the old one, the
invariant does too. -/
theorem Inv.of_ages {s s' : State V} (hs : Inv s) (h : Ages s s')
    (hflights : s'.flights = s.flights) (hloads : s'.loads = s.loads)
    (hinbox : s'.inbox = s.inbox) : Inv s' where
  sheltered replica f q hf hq := by
    rw [hflights] at hf
    obtain ⟨ctx, hctx, hshelter⟩ := hs.sheltered replica f q hf hq
    obtain ⟨ctx', hctx', hdeadline, -⟩ := h q ctx hctx
    exact ⟨ctx', hctx', by rw [hdeadline]; exact hshelter⟩
  detached replica f hf := hs.detached replica f (by rwa [hflights] at hf)
  runner replica f p hf hp := by
    rw [hflights] at hf
    rw [hloads]
    exact hs.runner replica f p hf hp
  inbox q err hq := h.ended (hs.inbox q err (by rwa [hinbox] at hq))

variable {s s' : State V} {p q : Nat}

theorem shelters_refl (d : Option Nat) : Shelters d d := fun x hx => ⟨x, hx, Nat.le_refl x⟩

theorem loadContext_deadline (ctx : Context) : (loadContext ctx).deadline = ctx.deadline := by
  unfold loadContext
  split
  · rename_i d hd
    rw [hd]
    rfl
  · rename_i hd
    rw [hd]
    rfl

theorem loadContext_cancelled (ctx : Context) : (loadContext ctx).cancelled = false := by
  unfold loadContext
  split <;> rfl

theorem join_cases {r : Nat} {ctx : Context} {f : Flight}
    (h : (s.join p replica ctx).flights r = some f) : s.flights r = some f ∨
    (∃ f₀, s.flights replica = some f₀ ∧ r = replica ∧ f = { f₀ with callers := p :: f₀.callers }) ∨
    (r = replica ∧ f = ⟨loadContext ctx, none, [p]⟩) := by
  by_cases hr : r = replica
  · subst hr
    simp only [State.join, Function.update_self] at h
    obtain rfl := some.inj h
    cases hf : s.flights r with
    | none => exact .inr (.inr ⟨rfl, rfl⟩)
    | some f₀ => exact .inr (.inl ⟨f₀, rfl, rfl, rfl⟩)
  · simp only [State.join, Function.update_of_ne hr] at h
    exact .inl h

theorem Inv.join (hs : Inv s) {ctx : Context} (hctx : s.contexts p = some ctx)
    (hjoins : ∀ f, s.flights replica = some f → Shelters f.context.deadline ctx.deadline) :
    Inv (s.join p replica ctx) where
  sheltered r f q hf hq := by
    obtain hf | ⟨f₀, hf₀, rfl, rfl⟩ | ⟨rfl, rfl⟩ := join_cases hf
    · exact hs.sheltered r f q hf hq
    · obtain rfl | hq := mem_cons.mp hq
      · exact ⟨ctx, hctx, hjoins f₀ hf₀⟩
      · exact hs.sheltered r f₀ q hf₀ hq
    · obtain rfl := mem_singleton.mp hq
      refine ⟨ctx, hctx, ?_⟩
      show Shelters (loadContext ctx).deadline ctx.deadline
      rw [loadContext_deadline]
      exact shelters_refl _
  detached r f hf := by
    obtain hf | ⟨f₀, hf₀, rfl, rfl⟩ | ⟨rfl, rfl⟩ := join_cases hf
    · exact hs.detached r f hf
    · exact hs.detached r f₀ hf₀
    · exact loadContext_cancelled ctx
  runner r f p hf hp := by
    obtain hf | ⟨f₀, hf₀, rfl, rfl⟩ | ⟨rfl, rfl⟩ := join_cases hf
    · exact hs.runner r f p hf hp
    · exact hs.runner r f₀ p hf₀ hp
    · cases hp
  inbox := hs.inbox

/-- When the context of a load is over, so are those of its callers. -/
theorem Inv.callers_ended (hs : Inv s) {f : Flight} (hf : s.flights replica = some f)
    (hended : f.context.ended s.clock) (hq : q ∈ f.callers) : s.ended q := by
  obtain ⟨ctx, hctx, hshelter⟩ := hs.sheltered replica f q hf hq
  rw [Context.ended_iff, hs.detached replica f hf] at hended
  obtain ⟨d, hd, hpassed⟩ := hended.resolve_left (by simp)
  obtain ⟨d', hd', hle⟩ := hshelter d hd
  exact ⟨ctx, hctx, Context.ended_iff.mpr (.inr ⟨d', hd', by omega⟩)⟩

theorem Inv.deliver (hs : Inv s) {f : Flight} {res : Except Err V} (hf : s.flights replica = some f)
    (hres : ∀ err, res = .error err → f.context.ended s.clock) : Inv (s.deliver replica f res) := by
  have hflights : ∀ r g, (s.deliver replica f res).flights r = some g → s.flights r = some g := by
    intro r g hg
    by_cases hr : r = replica
    · subst hr
      simp [State.deliver] at hg
    · simpa [State.deliver, Function.update_of_ne hr] using hg
  refine ⟨fun r g q hg => hs.sheltered r g q (hflights r g hg),
    fun r g hg => hs.detached r g (hflights r g hg),
    fun r g p hg => hs.runner r g p (hflights r g hg), fun q err hq => ?_⟩
  simp only [State.deliver] at hq
  split at hq
  · rename_i hmem
    exact hs.callers_ended hf (hres err (some.inj hq)) hmem
  · exact hs.inbox q err hq

theorem Inv.accept (hs : Inv s) {call : Call} (h : Deadlines.accept p call s = some s') :
    Inv s' := by
  cases call with
  | aside replica deadline =>
    have hages := ages_accept h
    simp only [Deadlines.accept] at h
    split at h
    · cases h
    · obtain rfl := some.inj h
      exact hs.of_ages hages rfl rfl rfl
  | flight replica =>
    obtain ⟨f₀, hf₀, h⟩ := bind_eq_some_iff.mp h
    split at h
    · cases h
    rename_i hnew
    obtain ⟨-, hload⟩ : f₀.runner = none ∧ s.loads p = none := by simpa using hnew
    obtain rfl := some.inj h
    refine ⟨fun r f q hf hq => ?_, fun r f hf => ?_, fun r f q hf hq => ?_, hs.inbox⟩
    all_goals
      by_cases hr : r = replica
      on_goal 1 =>
        subst hr
        simp only [Function.update_self] at hf
        obtain rfl := some.inj hf
      on_goal 2 => simp only [Function.update_of_ne hr] at hf
    · exact hs.sheltered r f₀ q hf₀ hq
    · exact hs.sheltered r f q hf hq
    · exact hs.detached r f₀ hf₀
    · exact hs.detached r f hf
    · obtain rfl := some.inj hq
      exact Function.update_self ..
    · have hq₀ := hs.runner r f q hf hq
      have hqp : q ≠ p := by
        rintro rfl
        simp [hload] at hq₀
      simpa [Function.update_of_ne hqp] using hq₀

theorem Inv.env (hs : Inv s) {e : Env} (h : Deadlines.env e s = some s') : Inv s' := by
  have hages := ages_env h
  cases e with
  | tick d =>
    obtain rfl := some.inj h
    exact hs.of_ages hages rfl rfl rfl
  | cancel p =>
    obtain ⟨ctx, -, rfl⟩ := map_eq_some_iff.mp h
    exact hs.of_ages hages rfl rfl rfl

variable {failed : Prop}

/-- Joining adds a caller to a load, and leaves it the goroutine and the context it has. -/
theorem Runs.join {r : Nat} {ctx : Context} (h : Runs q r failed s) :
    Runs q r failed (s.join p replica ctx) := by
  obtain ⟨f, hf, hrunner, hended⟩ := h
  by_cases hr : r = replica
  · subst hr
    exact ⟨{ f with callers := p :: f.callers }, by simp [State.join, hf], hrunner, hended⟩
  · exact ⟨f, by simpa [State.join, Function.update_of_ne hr] using hf, hrunner, hended⟩

theorem Runs.env {r : Nat} {e : Env} (h : Runs q r failed s) (he : Deadlines.env e s = some s') :
    Runs q r failed s' := by
  obtain ⟨f, hf, hrunner, hended⟩ := h
  cases e with
  | tick d =>
    obtain rfl := some.inj he
    exact ⟨f, hf, hrunner, fun hfailed => Context.ended_mono (hended hfailed) (Nat.le_add_right ..)⟩
  | cancel p =>
    obtain ⟨ctx, -, rfl⟩ := map_eq_some_iff.mp he
    exact ⟨f, hf, hrunner, hended⟩

theorem Runs.accept {r : Nat} {call : Call} (h : Runs q r failed s)
    (ha : Deadlines.accept p call s = some s') : Runs q r failed s' := by
  obtain ⟨f, hf, hrunner, hended⟩ := h
  cases call with
  | aside replica deadline =>
    simp only [Deadlines.accept] at ha
    split at ha
    · cases ha
    · obtain rfl := some.inj ha
      exact ⟨f, hf, hrunner, hended⟩
  | flight replica =>
    obtain ⟨f₀, hf₀, ha⟩ := bind_eq_some_iff.mp ha
    split at ha
    · cases ha
    rename_i hnew
    obtain rfl := some.inj ha
    -- the goroutine of a load is started once
    have hr : r ≠ replica := by
      rintro rfl
      obtain rfl : f = f₀ := some.inj (hf.symm.trans hf₀)
      simp [hrunner] at hnew
    exact ⟨f, by simpa [Function.update_of_ne hr] using hf, hrunner, hended⟩

end GolangBasics.Valkey.Deadlines
