import GolangBasics.Conc.System

/-! The runs of a program: what it asked in order, each request with the reply it got. -/
namespace GolangBasics.Conc.Prog

variable {Req : Type} {Rep : Req → Type} {α β : Type}

abbrev Reply (Req : Type) (Rep : Req → Type) := Σ r : Req, Rep r

inductive Runs : Prog Req Rep α → List (Reply Req Rep) → α → Prop where
  | ret (a : α) : Runs (.ret a) [] a
  | ask {r : Req} {k : Rep r → Prog Req Rep α} {events : List (Reply Req Rep)} {a : α} (x : Rep r)
      (h : Runs (k x) events a) : Runs (.ask r k) (⟨r, x⟩ :: events) a

variable {events : List (Reply Req Rep)}

@[simp] theorem runs_ret {a b : α} :
    (ret a : Prog Req Rep α).Runs events b ↔ events = [] ∧ b = a := by
  constructor
  · intro h
    cases h
    exact ⟨rfl, rfl⟩
  · rintro ⟨rfl, rfl⟩
    exact .ret b

@[simp] theorem runs_ask {r : Req} {k : Rep r → Prog Req Rep α} {a : α} :
    (ask r k).Runs events a ↔ ∃ x rest, events = ⟨r, x⟩ :: rest ∧ (k x).Runs rest a := by
  constructor
  · intro h
    cases h with
    | ask x h => exact ⟨x, _, rfl, h⟩
  · rintro ⟨x, rest, rfl, h⟩
    exact .ask x h

@[simp] theorem runs_request {r : Req} {x : Rep r} :
    (request r : Prog Req Rep (Rep r)).Runs events x ↔ events = [⟨r, x⟩] := by
  constructor
  · intro h
    obtain ⟨y, rest, rfl, hrest⟩ := runs_ask.mp h
    obtain ⟨rfl, rfl⟩ := runs_ret.mp hrest
    rfl
  · rintro rfl
    exact .ask x (.ret x)

theorem runs_request_bind {r : Req} {f : Rep r → Prog Req Rep α} {a : α} :
    (request r >>= f).Runs events a ↔ ∃ x rest, events = ⟨r, x⟩ :: rest ∧ (f x).Runs rest a :=
  runs_ask

variable {p : Prog Req Rep α} {f : α → Prog Req Rep β}

theorem Runs.bind {a : α} {b : β} {before after : List (Reply Req Rep)} (hp : p.Runs before a)
    (hf : (f a).Runs after b) : (p >>= f).Runs (before ++ after) b := by
  induction hp with
  | ret a => exact hf
  | ask x _ ih => exact .ask x (ih hf)

theorem runs_bind {b : β} : (p >>= f).Runs events b ↔
      ∃ before a after, events = before ++ after ∧ p.Runs before a ∧ (f a).Runs after b := by
  constructor
  · intro h
    induction p generalizing events with
    | ret a => exact ⟨[], a, events, rfl, .ret a, h⟩
    | ask r k ih =>
      obtain ⟨x, rest, rfl, hrest⟩ := runs_ask.mp h
      obtain ⟨before, a, after, rfl, hbefore, hafter⟩ := ih x hrest
      exact ⟨⟨r, x⟩ :: before, a, after, rfl, .ask x hbefore, hafter⟩
  · rintro ⟨before, a, after, rfl, hbefore, hafter⟩
    exact hbefore.bind hafter

def Can (S : (r : Req) → Rep r → Prop) (p : Prog Req Rep α) (a : α) : Prop :=
  ∃ events, p.Runs events a ∧ ∀ e ∈ events, S e.1 e.2

section
variable {S : (r : Req) → Rep r → Prop}

theorem can_ret (a : α) : (ret a : Prog Req Rep α).Can S a := ⟨[], .ret a, by simp⟩

theorem Can.bind {a : α} {b : β} (hp : p.Can S a) (hf : (f a).Can S b) : (p >>= f).Can S b := by
  obtain ⟨before, hbefore, hbeforeS⟩ := hp
  obtain ⟨after, hafter, hafterS⟩ := hf
  exact ⟨before ++ after, hbefore.bind hafter, List.forall_mem_append.mpr ⟨hbeforeS, hafterS⟩⟩

theorem can_request {r : Req} {x : Rep r} (hx : S r x) :
    (request r : Prog Req Rep (Rep r)).Can S x :=
  ⟨[⟨r, x⟩], runs_request.mpr rfl, by simpa using hx⟩

end

/-- Every request of the program, on every path, is one of `P`. -/
def Only (P : Req → Prop) : Prog Req Rep α → Prop
  | ret _ => True
  | ask r k => P r ∧ ∀ x, (k x).Only P

variable {P : Req → Prop}

@[simp] theorem only_ret (a : α) : (ret a : Prog Req Rep α).Only P := trivial

@[simp] theorem only_ask {r : Req} {k : Rep r → Prog Req Rep α} :
    (ask r k).Only P ↔ P r ∧ ∀ x, (k x).Only P := Iff.rfl

theorem only_request {r : Req} {f : Rep r → Prog Req Rep α} (hr : P r) (hf : ∀ x, (f x).Only P) :
    (request r >>= f).Only P := ⟨hr, hf⟩

theorem Only.bind (hp : p.Only P) (hf : ∀ a, (f a).Only P) : (p >>= f).Only P := by
  induction p with
  | ret a => exact hf a
  | ask r k ih => exact ⟨hp.1, fun x => ih x (hp.2 x)⟩

theorem Only.runs (hp : p.Only P) {a : α} (h : p.Runs events a) : ∀ e ∈ events, P e.1 := by
  induction h with
  | ret a => simp
  | ask x _ ih =>
    intro e he
    rcases List.mem_cons.mp he with rfl | he
    · exact hp.1
    · exact ih (hp.2 x) e he

theorem Only.leads {q : Prog Req Rep α} (hp : p.Only P) (h : p.Leads q) : q.Only P := by
  induction h with
  | refl => exact hp
  | reply _ x ih => exact ih.2 x

theorem Only.follows {K σ χ ε κ γ : Type} {M : Machine K Req Rep σ χ ε κ γ} {G : Protocol M} {q : K}
    (hp : p.Only fun r => ∀ s, G.pre q r s) (s : σ) : G.Follows q (fun _ _ => True) p s := by
  induction p generalizing s with
  | ret a => exact fun _ _ _ => trivial
  | ask r k ih => exact fun s₁ _ _ => ⟨hp.1 s₁, fun _ x s₂ _ => ih x (hp.2 x) s₂⟩

end GolangBasics.Conc.Prog
