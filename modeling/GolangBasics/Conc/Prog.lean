/-! Sequential programs that put requests to shared state. A program is the tree of
its requests, with one branch for every reply. An automaton may watch it, which moves with every
request and its reply. -/
namespace GolangBasics.Conc

inductive Prog (Req : Type) (Rep : Req → Type) (α : Type) where
  | ret (a : α) : Prog Req Rep α
  | ask (r : Req) (k : Rep r → Prog Req Rep α) : Prog Req Rep α

namespace Prog

variable {Req : Type} {Rep : Req → Type} {α β : Type}

def bind : Prog Req Rep α → (α → Prog Req Rep β) → Prog Req Rep β
  | ret a, f => f a
  | ask r k, f => ask r fun x => (k x).bind f

instance : Monad (Prog Req Rep) where
  pure := ret
  bind := bind

def request (r : Req) : Prog Req Rep (Rep r) := ask r ret

@[simp] theorem pure_eq_ret (a : α) : (pure a : Prog Req Rep α) = ret a := rfl

@[simp] theorem ret_bind (a : α) (f : α → Prog Req Rep β) :
    (ret a : Prog Req Rep α) >>= f = f a := rfl

@[simp] theorem ask_bind (r : Req) (k : Rep r → Prog Req Rep α) (f : α → Prog Req Rep β) :
    ask r k >>= f = ask r fun x => k x >>= f := rfl

@[simp] theorem request_bind (r : Req) (f : Rep r → Prog Req Rep β) :
    request r >>= f = ask r f := rfl

/-- `q` is what is left of `p` after some of its requests. -/
inductive Leads : Prog Req Rep α → Prog Req Rep α → Prop where
  | refl (p : Prog Req Rep α) : Leads p p
  | reply {p : Prog Req Rep α} {r : Req} {k : Rep r → Prog Req Rep α} (h : Leads p (ask r k))
      (x : Rep r) : Leads p (k x)

variable {S : Type} {δ : (r : Req) → Rep r → S → Option S}

/-- On every path, whatever is replied, the automaton has a move, and at the end the result
and its state are as wanted. -/
def Meets (δ : (r : Req) → Rep r → S → Option S) (Q : α → S → Prop) : Prog Req Rep α → S → Prop
  | ret a, s => Q a s
  | ask r k, s => ∀ x, ∃ s', δ r x s = some s' ∧ (k x).Meets δ Q s'

theorem meets_request {Q : α → S → Prop} {r : Req} {f : Rep r → Prog Req Rep α} {s : S}
    (h : ∀ x, ∃ s', δ r x s = some s' ∧ (f x).Meets δ Q s') :
    (request r >>= f).Meets δ Q s := h

theorem Meets.bind {R : β → S → Prop} {Q : α → S → Prop} {p : Prog Req Rep β}
    {f : β → Prog Req Rep α} {s : S} (hp : p.Meets δ R s)
    (hf : ∀ b s', R b s' → (f b).Meets δ Q s') : (p >>= f).Meets δ Q s := by
  induction p generalizing s with
  | ret b => exact hf b s hp
  | ask r k ih =>
    intro x
    obtain ⟨s', hmove, hk⟩ := hp x
    exact ⟨s', hmove, ih x hk⟩

/-- An automaton that always has a move is only asked for the result. -/
theorem meets_total {δ : (r : Req) → Rep r → S → S} (p : Prog Req Rep α) (s : S) :
    p.Meets (fun r x s => some (δ r x s)) (fun _ _ => True) s := by
  induction p generalizing s with
  | ret a => trivial
  | ask r k ih => exact fun x => ⟨_, rfl, ih x _⟩

end Prog

end GolangBasics.Conc
