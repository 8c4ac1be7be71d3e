import GolangBasics.Conc.System
import Mathlib.Tactic.SplitIfs

/-! A system that takes only some of the steps of another one, and how a second protocol is
laid over a first: once every run follows the first, the requests it does not allow can be
left out of the machine, and the second may take its conditions for granted. -/
namespace GolangBasics.Conc

variable {P Req : Type} {Rep : Req → Type} {σ χ ε κ α : Type}

/-- Every step of `N` is a step of `M`. -/
structure Machine.Restricts (N M : Machine P Req Rep σ χ ε κ α) : Prop where
  serve : ∀ {p r x s y}, N.serve p r x s = some y → M.serve p r x s = some y
  env : ∀ {e s s'}, N.env e s = some s' → M.env e s = some s'
  accept : ∀ {p call s s'}, N.accept p call s = some s' → M.accept p call s = some s'
  code : N.code = M.code

open Classical in
/-- `N` without the requests that the protocol does not allow. -/
noncomputable def Protocol.guard {M : Machine P Req Rep σ χ ε κ α} (G : Protocol M)
    (N : Machine P Req Rep σ χ ε κ α) : Machine P Req Rep σ χ ε κ α where
  serve p r x s := if G.pre p r s then N.serve p r x s else none
  env := N.env
  accept := N.accept
  code := N.code

section

variable {M N : Machine P Req Rep σ χ ε κ α} {G : Protocol M}

theorem Protocol.serve_guard {p : P} {r : Req} {x : χ} {s : σ} {y : Rep r × σ}
    (h : (G.guard N).serve p r x s = some y) : G.pre p r s ∧ N.serve p r x s = some y := by
  simp only [Protocol.guard] at h
  split_ifs at h with hpre
  exact ⟨hpre, h⟩

theorem Protocol.guard_serve {p : P} {r : Req} {x : χ} {s : σ} (hpre : G.pre p r s) :
    (G.guard N).serve p r x s = N.serve p r x s := by
  simp only [Protocol.guard, if_pos hpre]

end

variable [DecidableEq P] {M N : Machine P Req Rep σ χ ε κ α} {init : σ}
  {c c' : Config P Req Rep σ κ α} {e : Event P χ ε κ}

theorem Machine.Restricts.next (h : N.Restricts M) (hnext : N.next c e = some c') :
    M.next c e = some c' := by
  cases e with
  | start p call =>
    simp only [Machine.next] at hnext ⊢
    split at hnext
    · cases hnext
    · obtain ⟨s, hs, rfl⟩ := Option.map_eq_some_iff.mp hnext
      simp [h.accept hs, h.code]
  | step p x =>
    simp only [Machine.next] at hnext ⊢
    split at hnext
    · obtain ⟨y, hy, rfl⟩ := Option.map_eq_some_iff.mp hnext
      simp [h.serve hy]
    · cases hnext
  | env e =>
    simp only [Machine.next] at hnext ⊢
    obtain ⟨s, hs, rfl⟩ := Option.map_eq_some_iff.mp hnext
    simp [h.env hs]

theorem Machine.Restricts.reachable (h : N.Restricts M) (hc : N.Reachable init c) :
    M.Reachable init c := by
  induction hc with
  | init => exact .init
  | step e _ hnext ih => exact .step e ih (h.next hnext)

variable {G : Protocol M} {Q : P → κ → α → σ → Prop}

/-- In a state that follows the protocol the guard stops nothing. -/
theorem Protocol.Holds.next_guard (hc : G.Holds Q c) : (G.guard N).next c e = N.next c e := by
  cases e with
  | start p call => rfl
  | step p x =>
    simp only [Machine.next]
    split
    · rename_i call r k hp
      rw [Protocol.guard_serve (hc.2 p call _ hp c.shared .refl hc.1).1]
    · rfl
  | env e => rfl

theorem Machine.Restricts.reachable_guard (h : N.Restricts M)
    (hholds : ∀ {c}, M.Reachable init c → G.Holds Q c) (hc : N.Reachable init c) :
    (G.guard N).Reachable init c := by
  induction hc with
  | init => exact .init
  | step e hc hnext ih =>
    refine .step e ih ?_
    rw [(hholds (h.reachable hc)).next_guard, hnext]

end GolangBasics.Conc
