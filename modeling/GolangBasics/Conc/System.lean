import GolangBasics.Conc.Prog
import Mathlib.Logic.Relation
import Mathlib.Logic.Function.Basic

/-! Interleavings of any number of sequential programs over shared state, and a
rely-guarantee logic for them. The logic has two halves. A protocol says which
requests a process may make in which state, and proves that such requests keep an
invariant. A program follows the protocol when each of its requests is allowed in
every state the other processes can bring about. -/
namespace GolangBasics.Conc
open Relation Option

/-- The shared side of a system. `serve` answers one request of a process, `env` is a
step that no process takes, `accept` starts a call, and `code` is what a call runs.
The choice argument carries the nondeterminism: with `none` the step is not possible. -/
structure Machine (P Req : Type) (Rep : Req → Type) (σ χ ε κ α : Type) where
  serve : P → (r : Req) → χ → σ → Option (Rep r × σ)
  env : ε → σ → Option σ
  accept : P → κ → σ → Option σ
  code : P → κ → Prog Req Rep α

variable {P Req : Type} {Rep : Req → Type} {σ χ ε κ α β γ : Type}

/-- An invariant of the shared state together with the requests that keep it. -/
structure Protocol (M : Machine P Req Rep σ χ ε κ α) where
  inv : σ → Prop
  pre : P → (r : Req) → σ → Prop
  serve_inv : ∀ {p r x s rep s'}, inv s → pre p r s → M.serve p r x s = some (rep, s') → inv s'
  env_inv : ∀ {e s s'}, inv s → M.env e s = some s' → inv s'
  accept_inv : ∀ {p call s s'}, inv s → M.accept p call s = some s' → inv s'

namespace Protocol

variable {M : Machine P Req Rep σ χ ε κ α}

inductive Moves (G : Protocol M) (q : P) : σ → σ → Prop where
  | serve {p r x s rep s'} (hpq : p ≠ q) (hinv : G.inv s) (hpre : G.pre p r s)
      (h : M.serve p r x s = some (rep, s')) : Moves G q s s'
  | env {e s s'} (hinv : G.inv s) (h : M.env e s = some s') : Moves G q s s'
  | accept {p call s s'} (hpq : p ≠ q) (hinv : G.inv s) (h : M.accept p call s = some s') :
      Moves G q s s'

inductive Steps (G : Protocol M) : σ → σ → Prop where
  | serve {p r x s rep s'} (hinv : G.inv s) (hpre : G.pre p r s)
      (h : M.serve p r x s = some (rep, s')) : Steps G s s'
  | env {e s s'} (hinv : G.inv s) (h : M.env e s = some s') : Steps G s s'
  | accept {p call s s'} (hinv : G.inv s) (h : M.accept p call s = some s') : Steps G s s'

/-- An assertion of `q` that no step of the others invalidates. -/
def Stable (G : Protocol M) (q : P) (A : σ → Prop) : Prop :=
  ∀ ⦃s s'⦄, G.Moves q s s' → A s → A s'

/-- Every request `q` makes from here on is allowed, and its result satisfies `Q`,
whatever the others do in between. -/
def Follows (G : Protocol M) (q : P) (Q : β → σ → Prop) : Prog Req Rep β → σ → Prop
  | .ret a, s => ∀ s', ReflTransGen (G.Moves q) s s' → G.inv s' → Q a s'
  | .ask r k, s => ∀ s', ReflTransGen (G.Moves q) s s' → G.inv s' →
      G.pre q r s' ∧ ∀ x rep s'', M.serve q r x s' = some (rep, s'') → Follows G q Q (k rep) s''

variable {G : Protocol M} {q : P} {s s' : σ}

theorem Stable.star {A : σ → Prop} (hA : G.Stable q A)
    (h : ReflTransGen (G.Moves q) s s') (hs : A s) : A s' := by
  induction h with
  | refl => exact hs
  | tail _ hm ih => exact hA hm ih

theorem Stable.and {A B : σ → Prop} (hA : G.Stable q A) (hB : G.Stable q B) :
    G.Stable q fun s => A s ∧ B s :=
  fun _ _ hm h => ⟨hA hm h.1, hB hm h.2⟩

theorem Stable.const (a : Prop) : G.Stable q fun _ => a := fun _ _ _ h => h

theorem Follows.moves {Q : β → σ → Prop} {p : Prog Req Rep β}
    (h : G.Follows q Q p s) (hm : ReflTransGen (G.Moves q) s s') : G.Follows q Q p s' := by
  cases p with
  | ret a => exact fun s₁ h₁ => h s₁ (hm.trans h₁)
  | ask r k => exact fun s₁ h₁ => h s₁ (hm.trans h₁)

theorem stable_follows (Q : β → σ → Prop) (p : Prog Req Rep β) : G.Stable q (G.Follows q Q p) :=
  fun _ _ hm h => h.moves (.single hm)

theorem follows_ret {Q : β → σ → Prop} {a : β} (hQ : G.Stable q (Q a)) (h : Q a s) :
    G.Follows q Q (.ret a) s :=
  fun _ hm _ => hQ.star hm h

theorem follows_end (a : β) (s : σ) : G.Follows q (fun _ _ => True) (.ret a) s :=
  fun _ _ _ => trivial

/-- The rule for one request: an assertion that holds now and that the others keep
must allow the request and lead to a state from which the rest follows. -/
theorem follows_ask {Q : β → σ → Prop} {r : Req} {k : Rep r → Prog Req Rep β}
    (A : σ → Prop) (hA : G.Stable q A) (h : A s)
    (hpre : ∀ s, G.inv s → A s → G.pre q r s)
    (hk : ∀ x rep s s', G.inv s → A s → M.serve q r x s = some (rep, s') → G.inv s' →
      G.Follows q Q (k rep) s') :
    G.Follows q Q (.ask r k) s := by
  intro s₁ hm hinv
  have hA₁ := hA.star hm h
  have hp := hpre s₁ hinv hA₁
  exact ⟨hp, fun x rep s₂ hs => hk x rep s₁ s₂ hinv hA₁ hs (G.serve_inv hinv hp hs)⟩

theorem follows_bind {Q : γ → σ → Prop} {f : β → Prog Req Rep γ} {p : Prog Req Rep β}
    (h : G.Follows q (fun a => G.Follows q Q (f a)) p s) (hs : G.inv s) :
    G.Follows q Q (p >>= f) s := by
  induction p generalizing s with
  | ret a => exact h s .refl hs
  | ask r k ih =>
    intro s₁ hm hinv
    obtain ⟨hp, hk⟩ := h s₁ hm hinv
    exact ⟨hp, fun x rep s₂ hs₂ => ih rep (hk x rep s₂ hs₂) (G.serve_inv hinv hp hs₂)⟩

theorem Follows.mono {Q Q' : β → σ → Prop} {p : Prog Req Rep β}
    (h : G.Follows q Q p s) (hQ : ∀ a s, G.inv s → Q a s → Q' a s) : G.Follows q Q' p s := by
  induction p generalizing s with
  | ret a => exact fun s₁ hm hinv => hQ a s₁ hinv (h s₁ hm hinv)
  | ask r k ih =>
    intro s₁ hm hinv
    obtain ⟨hp, hk⟩ := h s₁ hm hinv
    exact ⟨hp, fun x rep s₂ hs₂ => ih rep (hk x rep s₂ hs₂)⟩

end Protocol

structure Config (P Req : Type) (Rep : Req → Type) (σ κ α : Type) where
  shared : σ
  proc : P → Option (κ × Prog Req Rep α)

inductive Event (P χ ε κ : Type) where
  | start (p : P) (call : κ)
  | step (p : P) (x : χ)
  | env (e : ε)

variable {p : P} {c : Config P Req Rep σ κ α} {call : κ}

namespace Protocol

variable {M : Machine P Req Rep σ χ ε κ α} {G : Protocol M} {Q : P → κ → α → σ → Prop}

def Holds (G : Protocol M) (Q : P → κ → α → σ → Prop) (c : Config P Req Rep σ κ α) : Prop :=
  G.inv c.shared ∧ ∀ p call prog, c.proc p = some (call, prog) →
    G.Follows p (Q p call) prog c.shared

theorem Holds.returned (hc : G.Holds Q c) {a : α} (hp : c.proc p = some (call, .ret a)) :
    Q p call a c.shared :=
  hc.2 p call _ hp c.shared .refl hc.1

end Protocol

variable [DecidableEq P]
  {c' : Config P Req Rep σ κ α} {e : Event P χ ε κ} {prog : Prog Req Rep α}

namespace Machine

variable (M : Machine P Req Rep σ χ ε κ α)

/-- One step of the interleaving. A process starts once and is never restarted. -/
def next (c : Config P Req Rep σ κ α) : Event P χ ε κ → Option (Config P Req Rep σ κ α)
  | .start p call =>
    match c.proc p with
    | some _ => none
    | none => (M.accept p call c.shared).map fun s =>
        ⟨s, Function.update c.proc p (some (call, M.code p call))⟩
  | .step p x =>
    match c.proc p with
    | some (call, .ask r k) => (M.serve p r x c.shared).map fun y =>
        ⟨y.2, Function.update c.proc p (some (call, k y.1))⟩
    | _ => none
  | .env e => (M.env e c.shared).map fun s => ⟨s, c.proc⟩

/-- The states of every run from `init`, where no process has started. -/
inductive Reachable (init : σ) : Config P Req Rep σ κ α → Prop where
  | init : Reachable init ⟨init, fun _ => none⟩
  | step {c c' : Config P Req Rep σ κ α} (e : Event P χ ε κ) :
      Reachable init c → M.next c e = some c' → Reachable init c'

def run (c : Config P Req Rep σ κ α) : List (Event P χ ε κ) → Option (Config P Req Rep σ κ α)
  | [] => some c
  | e :: es => (M.next c e).bind (run · es)

theorem run_append (c : Config P Req Rep σ κ α) (es es' : List (Event P χ ε κ)) :
    M.run c (es ++ es') = (M.run c es).bind (M.run · es') := by
  induction es generalizing c with
  | nil => rfl
  | cons e es ih => simp only [List.cons_append, run, ih, bind_assoc]

theorem Reachable.run {M : Machine P Req Rep σ χ ε κ α} {init : σ} {es : List (Event P χ ε κ)}
    (hc : M.Reachable init c) (h : M.run c es = some c') : M.Reachable init c' := by
  induction es generalizing c with
  | nil =>
    obtain rfl := some.inj h
    exact hc
  | cons e es ih =>
    obtain ⟨c₁, h₁, h₂⟩ := bind_eq_some_iff.mp h
    exact ih (.step e hc h₁) h₂

theorem proc_next {M : Machine P Req Rep σ χ ε κ α} (h : M.next c e = some c')
    (hp : c'.proc p = some (call, prog)) :
    (∃ prog₀, c.proc p = some (call, prog₀)) ∨ M.accept p call c.shared = some c'.shared := by
  cases e with
  | start q call' =>
    simp only [next] at h
    split at h
    · cases h
    · obtain ⟨s, hs, rfl⟩ := map_eq_some_iff.mp h
      by_cases hpq : p = q
      · subst hpq
        obtain ⟨rfl, -⟩ : call' = call ∧ M.code p call' = prog := by simpa using hp
        exact .inr hs
      · exact .inl ⟨prog, by simpa [Function.update_of_ne hpq] using hp⟩
  | step q x =>
    simp only [next] at h
    split at h
    · rename_i call' r k hq
      obtain ⟨⟨rep, s⟩, hs, rfl⟩ := map_eq_some_iff.mp h
      by_cases hpq : p = q
      · subst hpq
        obtain ⟨rfl, -⟩ : call' = call ∧ k rep = prog := by simpa using hp
        exact .inl ⟨_, hq⟩
      · exact .inl ⟨prog, by simpa [Function.update_of_ne hpq] using hp⟩
    · cases h
  | env e =>
    obtain ⟨s, hs, rfl⟩ := map_eq_some_iff.mp h
    exact .inl ⟨prog, hp⟩

theorem next_call {M : Machine P Req Rep σ χ ε κ α} (h : M.next c e = some c')
    (hp : c.proc p = some (call, prog)) : ∃ prog', c'.proc p = some (call, prog') := by
  cases e with
  | start q call' =>
    simp only [next] at h
    split at h
    · cases h
    · rename_i hq
      obtain ⟨s, -, rfl⟩ := map_eq_some_iff.mp h
      have hpq : p ≠ q := by
        rintro rfl
        simp [hq] at hp
      exact ⟨prog, by simpa [Function.update_of_ne hpq] using hp⟩
  | step q x =>
    simp only [next] at h
    split at h
    · rename_i call' r k hq
      obtain ⟨⟨rep, s⟩, -, rfl⟩ := map_eq_some_iff.mp h
      by_cases hpq : p = q
      · subst hpq
        obtain ⟨rfl, -⟩ : call' = call ∧ .ask r k = prog := by simpa [hq] using hp
        exact ⟨k rep, by simp⟩
      · exact ⟨prog, by simpa [Function.update_of_ne hpq] using hp⟩
    · cases h
  | env e =>
    obtain ⟨s, -, rfl⟩ := map_eq_some_iff.mp h
    exact ⟨prog, hp⟩

/-- What a process still has to do is a rest of the code of its call. -/
theorem Reachable.leads {M : Machine P Req Rep σ χ ε κ α} {init : σ} (hc : M.Reachable init c)
    (hp : c.proc p = some (call, prog)) : (M.code p call).Leads prog := by
  induction hc generalizing call prog with
  | init => simp at hp
  | @step c c' e _ hnext ih =>
    cases e with
    | start q call' =>
      simp only [next] at hnext
      split at hnext
      · cases hnext
      obtain ⟨s, -, rfl⟩ := map_eq_some_iff.mp hnext
      by_cases hpq : p = q
      · subst hpq
        obtain ⟨rfl, rfl⟩ : call' = call ∧ M.code p call' = prog := by simpa using hp
        exact .refl _
      · exact ih (by simpa [Function.update_of_ne hpq] using hp)
    | step q x =>
      simp only [next] at hnext
      split at hnext
      · rename_i call' r k hq
        obtain ⟨⟨rep, s⟩, -, rfl⟩ := map_eq_some_iff.mp hnext
        by_cases hpq : p = q
        · subst hpq
          obtain ⟨rfl, rfl⟩ : call' = call ∧ k rep = prog := by simpa using hp
          exact (ih hq).reply rep
        · exact ih (by simpa [Function.update_of_ne hpq] using hp)
      · cases hnext
    | env e =>
      obtain ⟨s, -, rfl⟩ := map_eq_some_iff.mp hnext
      exact ih hp

/-- The step in which a process returns is its last request. -/
theorem next_returns {M : Machine P Req Rep σ χ ε κ α} {x : χ} {a : α}
    (h : M.next c (.step p x) = some c') (hp : c'.proc p = some (call, .ret a)) :
    ∃ r k rep, c.proc p = some (call, .ask r k) ∧ M.serve p r x c.shared = some (rep, c'.shared) ∧
      k rep = .ret a := by
  simp only [next] at h
  split at h
  · rename_i call' r k hq
    obtain ⟨⟨rep, s⟩, hs, rfl⟩ := map_eq_some_iff.mp h
    obtain ⟨rfl, hret⟩ : call' = call ∧ k rep = .ret a := by simpa using hp
    exact ⟨r, k, rep, hq, hs, hret⟩
  · cases h

end Machine

namespace Protocol

variable {M : Machine P Req Rep σ χ ε κ α} {G : Protocol M} {Q : P → κ → α → σ → Prop} {init : σ}

private theorem holds_update {s : σ} (hc : G.Holds Q c) (hinv : G.inv s)
    (hprog : G.Follows p (Q p call) prog s) (hm : ∀ q, p ≠ q → G.Moves q c.shared s) :
    G.Holds Q ⟨s, Function.update c.proc p (some (call, prog))⟩ := by
  refine ⟨hinv, fun q call' prog' hq => ?_⟩
  by_cases hqp : q = p
  · subst hqp
    obtain ⟨rfl, rfl⟩ : call = call' ∧ prog = prog' := by simpa using hq
    exact hprog
  · simp only [Function.update_of_ne hqp] at hq
    exact (hc.2 q call' prog' hq).moves (.single (hm q (Ne.symm hqp)))

/-- Soundness: when the code of every call follows the protocol from the state that
accepted the call, the invariant holds in every state of every interleaving, and
every process still follows the protocol there. -/
theorem holds_of_reachable (hinit : G.inv init)
    (hcode : ∀ p call s s', G.inv s → M.accept p call s = some s' →
      G.Follows p (Q p call) (M.code p call) s') (hc : M.Reachable init c) : G.Holds Q c := by
  induction hc with
  | init => exact ⟨hinit, fun p call prog h => by simp at h⟩
  | @step c c' e _ hstep ih =>
    cases e with
    | start p call =>
      simp only [Machine.next] at hstep
      split at hstep
      · simp at hstep
      · obtain ⟨s, hs, rfl⟩ := map_eq_some_iff.mp hstep
        exact holds_update ih (G.accept_inv ih.1 hs) (hcode p call _ _ ih.1 hs)
          fun q hpq => .accept hpq ih.1 hs
    | step p x =>
      simp only [Machine.next] at hstep
      split at hstep
      · rename_i call r k hp
        obtain ⟨⟨rep, s⟩, hs, rfl⟩ := map_eq_some_iff.mp hstep
        obtain ⟨hpre, hk⟩ := ih.2 p call _ hp c.shared .refl ih.1
        exact holds_update ih (G.serve_inv ih.1 hpre hs) (hk x rep s hs)
          fun q hpq => .serve hpq ih.1 hpre hs
      · simp at hstep
    | env e =>
      obtain ⟨s, hs, rfl⟩ := map_eq_some_iff.mp hstep
      exact ⟨G.env_inv ih.1 hs, fun q call' prog hq =>
        (ih.2 q call' prog hq).moves (.single (.env ih.1 hs))⟩

/-- A step as the protocol sees it: a call starts, a process makes a request that it may make,
or the environment moves. -/
theorem Holds.next_cases (hc : G.Holds Q c) (h : M.next c e = some c') :
    (∃ p call, M.accept p call c.shared = some c'.shared) ∨
    (∃ p x call r k rep, c.proc p = some (call, .ask r k) ∧ G.pre p r c.shared ∧
      M.serve p r x c.shared = some (rep, c'.shared)) ∨
    ∃ e', M.env e' c.shared = some c'.shared := by
  cases e with
  | start p call =>
    simp only [Machine.next] at h
    split at h
    · cases h
    · obtain ⟨s, hs, rfl⟩ := map_eq_some_iff.mp h
      exact .inl ⟨p, call, hs⟩
  | step p x =>
    simp only [Machine.next] at h
    split at h
    · rename_i call r k hp
      obtain ⟨⟨rep, s⟩, hs, rfl⟩ := map_eq_some_iff.mp h
      have hpre := (hc.2 p call _ hp c.shared .refl hc.1).1
      exact .inr (.inl ⟨p, x, call, r, k, rep, hp, hpre, hs⟩)
    · cases h
  | env e =>
    obtain ⟨s, hs, rfl⟩ := map_eq_some_iff.mp h
    exact .inr (.inr ⟨e, hs⟩)

theorem Holds.steps (hc : G.Holds Q c) (h : M.next c e = some c') : G.Steps c.shared c'.shared := by
  rcases hc.next_cases h with ⟨p, call, hs⟩ | ⟨p, x, call, r, k, rep, -, hpre, hs⟩ | ⟨e', hs⟩
  · exact .accept hc.1 hs
  · exact .serve hc.1 hpre hs
  · exact .env hc.1 hs

/-- What the start of a call establishes and no step destroys holds of every call that has
started. -/
theorem started_of_reachable (hinit : G.inv init)
    (hcode : ∀ p call s s', G.inv s → M.accept p call s = some s' →
      G.Follows p (Q p call) (M.code p call) s') {T : P → κ → σ → Prop}
    (hstart : ∀ p call s s', M.accept p call s = some s' → T p call s')
    (hT : ∀ p call s s', G.Steps s s' → T p call s → T p call s') (hc : M.Reachable init c)
    (hp : c.proc p = some (call, prog)) : T p call c.shared := by
  induction hc generalizing prog with
  | init => simp at hp
  | @step c c' e hc hstep ih =>
    have hsteps := (holds_of_reachable hinit hcode hc).steps hstep
    rcases Machine.proc_next hstep hp with ⟨prog₀, hp₀⟩ | haccept
    · exact hT p call _ _ hsteps (ih hp₀)
    · exact hstart p call _ _ haccept

end Protocol

end GolangBasics.Conc
