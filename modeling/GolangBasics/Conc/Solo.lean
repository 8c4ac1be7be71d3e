import GolangBasics.Conc.System

/-! A process that runs alone: each of its requests is served in turn, with one and the same
choice or with given ones. -/
namespace GolangBasics.Conc
open List Option

variable {P Req : Type} {Rep : Req → Type} {σ χ ε κ α β γ : Type}

/-- `p` alone comes from a program and a state to a result and a state. -/
inductive Machine.Solo (M : Machine P Req Rep σ χ ε κ α) (p : P) (x : χ) :
    Prog Req Rep β → σ → β → σ → Prop where
  | ret (b : β) (s : σ) : Solo M p x (.ret b) s b s
  | ask {r : Req} {k : Rep r → Prog Req Rep β} {rep : Rep r} {b : β} {s s₁ s₂ : σ}
      (h : M.serve p r x s = some (rep, s₁)) (hrest : Solo M p x (k rep) s₁ b s₂) :
      Solo M p x (.ask r k) s b s₂

namespace Machine

variable {M : Machine P Req Rep σ χ ε κ α} {p : P} {x : χ}

theorem Solo.bind {prog : Prog Req Rep β} {f : β → Prog Req Rep γ} {b : β} {g : γ}
    {s s₁ s₂ : σ} (h : M.Solo p x prog s b s₁) (hf : M.Solo p x (f b) s₁ g s₂) :
    M.Solo p x (prog >>= f) s g s₂ := by
  induction h with
  | ret b s => exact hf
  | ask h _ ih => exact .ask h (ih hf)

/-- What is left of a program, and the state, after requests served with these choices. -/
def alone (M : Machine P Req Rep σ χ ε κ α) (p : P) :
    List χ → Prog Req Rep α → σ → Option (Prog Req Rep α × σ)
  | [], prog, s => some (prog, s)
  | x :: xs, .ask r k, s => (M.serve p r x s).bind fun y => alone M p xs (k y.1) y.2
  | _ :: _, .ret _, _ => none

theorem alone_ask {xs : List χ} {r : Req} {k : Rep r → Prog Req Rep α} {rep : Rep r} {s s' : σ}
    {y : Option (Prog Req Rep α × σ)} (h : M.serve p r x s = some (rep, s'))
    (hrest : M.alone p xs (k rep) s' = y) : M.alone p (x :: xs) (.ask r k) s = y := by
  rw [alone, h]
  exact hrest

variable [DecidableEq P]

/-- Such a run is one of the interleavings. -/
theorem Solo.run {prog : Prog Req Rep α} {a : α} {s s' : σ} (h : M.Solo p x prog s a s')
    {c : Config P Req Rep σ κ α} {call : κ} (hs : c.shared = s)
    (hp : c.proc p = some (call, prog)) :
    ∃ n c', M.run c (List.replicate n (.step p x)) = some c' ∧ c'.shared = s' ∧
      c'.proc p = some (call, .ret a) := by
  induction h generalizing c with
  | ret a s => exact ⟨0, c, rfl, hs, hp⟩
  | @ask r k rep a s s₁ s₂ h _ ih =>
    subst hs
    obtain ⟨n, c', hrun, hshared, hproc⟩ :=
      ih (c := ⟨s₁, Function.update c.proc p (some (call, k rep))⟩) rfl (by simp)
    refine ⟨n + 1, c', ?_, hshared, hproc⟩
    rw [replicate_succ, Machine.run, Machine.next, hp]
    simp only [h, map_some, bind_some]
    exact hrun

theorem run_alone {xs : List χ} {prog prog' : Prog Req Rep α} {s s' : σ}
    {proc : P → Option (κ × Prog Req Rep α)} {call : κ}
    (h : M.alone p xs prog s = some (prog', s')) (hp : proc p = some (call, prog)) :
    M.run ⟨s, proc⟩ (xs.map (.step p)) = some ⟨s', Function.update proc p (some (call, prog'))⟩ := by
  induction xs generalizing prog s proc with
  | nil =>
    obtain ⟨rfl, rfl⟩ := Prod.mk.inj (some.inj h)
    rw [← hp, Function.update_eq_self]
    rfl
  | cons x xs ih =>
    cases prog with
    | ret a => cases h
    | ask r k =>
      obtain ⟨⟨rep, s₁⟩, hserve, hrest⟩ := bind_eq_some_iff.mp h
      have hrun := ih hrest (Function.update_self p (some (call, k rep)) proc)
      rw [Function.update_idem] at hrun
      simp only [map_cons, Machine.run, Machine.next, hp, hserve, map_some,
        bind_some]
      exact hrun

theorem run_start {xs : List χ} {prog : Prog Req Rep α} {s s' : σ} {c : Config P Req Rep σ κ α}
    {call : κ} (hp : c.proc p = none) (hs : M.accept p call c.shared = some s)
    (h : M.alone p xs (M.code p call) s = some (prog, s')) :
    M.run c (.start p call :: xs.map (.step p)) =
      some ⟨s', Function.update c.proc p (some (call, prog))⟩ := by
  have hrun := run_alone h (Function.update_self p (some (call, M.code p call)) c.proc)
  rw [Function.update_idem] at hrun
  simp only [Machine.run, Machine.next, hp, hs, map_some, bind_some]
  exact hrun

end Machine

end GolangBasics.Conc
