import Mathlib.Algebra.Order.BigOperators.Group.List
import Mathlib.Algebra.Order.Group.Nat
import Mathlib.Algebra.Ring.Nat

/-! Threads over shared memory, one atomic step at a time. A thread is a local state, its
place in the code with its variables. Any number of threads start at any time, and the
environment moves in between. -/
namespace GolangBasics.Conc
open List Option

/-- `start` says how a thread may begin, `step` is the next atomic step of a thread, and
`env` is a step that no thread takes. The choice argument carries the nondeterminism: with
`none` the step is not possible. -/
structure Threads (σ L χ ε : Type) where
  start : L → Bool
  step : Nat → L → χ → σ → Option (L × σ)
  env : ε → σ → Option σ

/-- A state of the whole system. Threads keep their place in the list. -/
structure Pool (σ L : Type) where
  shared : σ
  threads : List L

inductive Act (L χ ε : Type) where
  | spawn (l : L)
  | step (i : Nat) (x : χ)
  | env (e : ε)

variable {σ L χ ε : Type}
  {ts : List L}

theorem sum_map_set {f : L → Nat} {i : Nat} {l k : L} (h : ts[i]? = some l) :
    ((ts.set i k).map f).sum + f l = (ts.map f).sum + f k := by
  induction ts generalizing i with
  | nil => simp at h
  | cons t ts ih =>
    cases i with
    | zero =>
      obtain rfl : t = l := by simpa using h
      simp only [set_cons_zero, map_cons, sum_cons]
      omega
    | succ i =>
      have hts := ih (by simpa using h)
      simp only [set_cons_succ, map_cons, sum_cons]
      omega

namespace Pool

def total (c : Pool σ L) (f : L → Nat) : Nat := (c.threads.map f).sum

variable {f : L → Nat} {s : σ} {c : Pool σ L} {i : Nat} {l k : L}

theorem total_spawn : (Pool.mk s (c.threads ++ [l])).total f = c.total f + f l := by
  simp [total]

theorem total_set (h : c.threads[i]? = some l) :
    (Pool.mk s (c.threads.set i k)).total f + f l = c.total f + f k :=
  sum_map_set h

theorem le_total (h : c.threads[i]? = some l) : f l ≤ c.total f := by
  have hmem : f l ∈ c.threads.map f := List.mem_map_of_mem (mem_of_getElem? h)
  exact le_sum_of_mem hmem

theorem total_le {g : L → Nat} (h : ∀ l, f l ≤ g l) : c.total f ≤ c.total g :=
  sum_le_sum fun l _ => h l

theorem total_add {g : L → Nat} : c.total (fun l => f l + g l) = c.total f + c.total g :=
  sum_map_add

theorem add_le_sum {j : Nat} {m : L} (hi : ts[i]? = some l) (hj : ts[j]? = some m) (hne : j ≠ i) :
    f l + f m ≤ (ts.map f).sum := by
  induction ts generalizing i j with
  | nil => simp at hi
  | cons t ts ih =>
    simp only [map_cons, sum_cons]
    cases i with
    | zero =>
      cases j with
      | zero => exact absurd rfl hne
      | succ j =>
        obtain rfl : t = l := by simpa using hi
        have hm : f m ∈ ts.map f := List.mem_map_of_mem (mem_of_getElem? (by simpa using hj))
        have := le_sum_of_mem hm
        omega
    | succ i =>
      cases j with
      | zero =>
        obtain rfl : t = m := by simpa using hj
        have hl : f l ∈ ts.map f := List.mem_map_of_mem (mem_of_getElem? (by simpa using hi))
        have := le_sum_of_mem hl
        omega
      | succ j =>
        have := ih (by simpa using hi) (by simpa using hj) (by omega)
        omega

theorem add_le_total {j : Nat} {m : L} (hi : c.threads[i]? = some l)
    (hj : c.threads[j]? = some m) (hne : j ≠ i) : f l + f m ≤ c.total f :=
  add_le_sum hi hj hne

theorem total_eq_zero (h : ∀ (i : Nat) (l : L), c.threads[i]? = some l → f l = 0) :
    c.total f = 0 := by
  refine sum_eq_zero fun n hn => ?_
  obtain ⟨l, hl, rfl⟩ := List.mem_map.mp hn
  obtain ⟨i, hi⟩ := List.getElem?_of_mem hl
  exact h i l hi

theorem set_self (h : ts[i]? = some l) : (ts.set i k)[i]? = some k := by
  have hlt := (List.getElem?_eq_some_iff.mp h).1
  exact List.getElem?_set_self hlt

theorem spawn_cases {j : Nat} {m : L} (h : (ts ++ [l])[j]? = some m) :
    j = ts.length ∧ m = l ∨ ts[j]? = some m := by
  have hlt := (List.getElem?_eq_some_iff.mp h).1
  simp only [length_append, length_singleton] at hlt
  rcases Nat.lt_succ_iff_lt_or_eq.mp hlt with hlt | rfl
  · rw [List.getElem?_append_left hlt] at h
    exact .inr h
  · obtain rfl : l = m := by simpa using h
    exact .inl ⟨rfl, rfl⟩

theorem set_cases {j : Nat} {m : L} (h : (ts.set i k)[j]? = some m) :
    j = i ∧ m = k ∨ j ≠ i ∧ ts[j]? = some m := by
  by_cases hj : j = i
  · subst hj
    have hself : (∃ x, ts[j]? = some x) ∧ k = m := by
      simpa [List.getElem?_set_self', map_eq_some_iff] using h
    exact .inl ⟨rfl, hself.2.symm⟩
  · exact .inr ⟨hj, by simpa [List.getElem?_set_ne (Ne.symm hj)] using h⟩

def Each (J : Nat → σ → L → Prop) (c : Pool σ L) : Prop :=
  ∀ i l, c.threads[i]? = some l → J i c.shared l

variable {J : Nat → σ → L → Prop}

theorem each_spawn (hc : Each J c) (h : J c.threads.length c.shared l) :
    Each J ⟨c.shared, c.threads ++ [l]⟩ := by
  intro j m hm
  rcases spawn_cases hm with ⟨rfl, rfl⟩ | hm
  · exact h
  · exact hc j m hm

theorem each_set (hc : Each J c) (h : J i s k)
    (hkeep : ∀ j m, j ≠ i → c.threads[j]? = some m → J j c.shared m → J j s m) :
    Each J ⟨s, c.threads.set i k⟩ := by
  intro j m hm
  rcases set_cases hm with ⟨rfl, rfl⟩ | ⟨hj, hm⟩
  · exact h
  · exact hkeep j m hj hm (hc j m hm)

theorem each_env (hc : Each J c) (hkeep : ∀ j m, J j c.shared m → J j s m) :
    Each J ⟨s, c.threads⟩ :=
  fun j m hm => hkeep j m (hc j m hm)

end Pool

namespace Threads

variable (T : Threads σ L χ ε)

def next (c : Pool σ L) : Act L χ ε → Option (Pool σ L)
  | .spawn l => if T.start l then some ⟨c.shared, c.threads ++ [l]⟩ else none
  | .step i x =>
    match c.threads[i]? with
    | some l => (T.step i l x c.shared).map fun y => ⟨y.2, c.threads.set i y.1⟩
    | none => none
  | .env e => (T.env e c.shared).map fun s => ⟨s, c.threads⟩

/-- The states of every run from `init` whose steps all meet a condition. -/
inductive ReachableIf (ok : Pool σ L → Act L χ ε → Prop) (init : σ) : Pool σ L → Prop where
  | init : ReachableIf ok init ⟨init, []⟩
  | step {c c' : Pool σ L} (a : Act L χ ε) :
      ReachableIf ok init c → ok c a → T.next c a = some c' → ReachableIf ok init c'

def Reachable (init : σ) : Pool σ L → Prop := T.ReachableIf (fun _ _ => True) init

def run (c : Pool σ L) : List (Act L χ ε) → Option (Pool σ L)
  | [] => some c
  | a :: as => (T.next c a).bind (run · as)

def runIf (ok : Pool σ L → Act L χ ε → Bool) (c : Pool σ L) :
    List (Act L χ ε) → Option (Pool σ L)
  | [] => some c
  | a :: as => if ok c a then (T.next c a).bind (runIf ok · as) else none

/-- Thread `i` runs on its own, from one local and shared state to another. -/
inductive Alone (i : Nat) : L → σ → L → σ → Prop where
  | refl (l : L) (s : σ) : Alone i l s l s
  | step {l l' l'' : L} {s s' s'' : σ} (x : χ) :
      T.step i l x s = some (l', s') → Alone i l' s' l'' s'' → Alone i l s l'' s''

variable {T} {ok : Pool σ L → Act L χ ε → Prop} {init : σ} {c c' : Pool σ L}

/-- What one step can be. -/
theorem next_cases {a : Act L χ ε} (h : T.next c a = some c') :
    (∃ l, a = .spawn l ∧ T.start l ∧ c' = ⟨c.shared, c.threads ++ [l]⟩) ∨
    (∃ i x l l' s, a = .step i x ∧ c.threads[i]? = some l ∧
      T.step i l x c.shared = some (l', s) ∧ c' = ⟨s, c.threads.set i l'⟩) ∨
    ∃ e s, a = .env e ∧ T.env e c.shared = some s ∧ c' = ⟨s, c.threads⟩ := by
  cases a with
  | spawn l =>
    simp only [next] at h
    split at h
    · cases h
      exact .inl ⟨l, rfl, ‹_›, rfl⟩
    · cases h
  | step i x =>
    simp only [next] at h
    split at h
    · rename_i l hl
      obtain ⟨⟨l', s⟩, hstep, rfl⟩ := map_eq_some_iff.mp h
      exact .inr (.inl ⟨i, x, l, l', s, rfl, hl, hstep, rfl⟩)
    · cases h
  | env e =>
    obtain ⟨s, henv, rfl⟩ := map_eq_some_iff.mp h
    exact .inr (.inr ⟨e, s, rfl, henv, rfl⟩)

theorem next_step {i : Nat} {x : χ} {l l' : L} {s : σ} (hl : c.threads[i]? = some l)
    (h : T.step i l x c.shared = some (l', s)) :
    T.next c (.step i x) = some ⟨s, c.threads.set i l'⟩ := by
  simp only [next, hl, h, map_some]

variable {as : List (Act L χ ε)}

theorem run_cons {c₁ : Pool σ L} {a : Act L χ ε} (h : T.next c a = some c₁)
    (has : T.run c₁ as = some c') : T.run c (a :: as) = some c' := by
  simp only [run, h, bind_some, has]

/-- The rule of inductive invariants, one premise for each kind of step, from a state that is
known to be reachable. -/
theorem ReachableIf.induct {I : Pool σ L → Prop} (hc : T.ReachableIf ok init c)
    (hinit : I ⟨init, []⟩)
    (hspawn : ∀ c l, T.ReachableIf ok init c → I c → T.start l → I ⟨c.shared, c.threads ++ [l]⟩)
    (hstep : ∀ c i x l l' s, T.ReachableIf ok init c → I c → ok c (.step i x) →
      c.threads[i]? = some l → T.step i l x c.shared = some (l', s) →
      I ⟨s, c.threads.set i l'⟩)
    (henv : ∀ c e s, T.ReachableIf ok init c → I c → ok c (.env e) →
      T.env e c.shared = some s → I ⟨s, c.threads⟩) : I c := by
  induction hc with
  | init => exact hinit
  | step a hc hok h ih =>
    rcases next_cases h with ⟨l, rfl, hl, rfl⟩ | ⟨i, x, l, l', s, rfl, hl, hs, rfl⟩ |
      ⟨e, s, rfl, hs, rfl⟩
    · exact hspawn _ l hc ih hl
    · exact hstep _ i x l l' s hc ih hok hl hs
    · exact henv _ e s hc ih hok hs

theorem ReachableIf.invariant {I : Pool σ L → Prop} (hc : T.ReachableIf ok init c)
    (hinit : I ⟨init, []⟩)
    (hspawn : ∀ c l, I c → T.start l → I ⟨c.shared, c.threads ++ [l]⟩)
    (hstep : ∀ c i x l l' s, I c → ok c (.step i x) → c.threads[i]? = some l →
      T.step i l x c.shared = some (l', s) → I ⟨s, c.threads.set i l'⟩)
    (henv : ∀ c e s, I c → ok c (.env e) → T.env e c.shared = some s → I ⟨s, c.threads⟩) :
    I c :=
  hc.induct hinit (fun c l _ => hspawn c l) (fun c i x l l' s _ => hstep c i x l l' s)
    fun c e s _ => henv c e s

theorem ReachableIf.reachable (hc : T.ReachableIf ok init c) : T.Reachable init c := by
  induction hc with
  | init => exact .init
  | step a _ _ h ih => exact .step a ih trivial h

theorem ReachableIf.imp {ok' : Pool σ L → Act L χ ε → Prop} (hc : T.ReachableIf ok init c)
    (himp : ∀ c a, T.ReachableIf ok init c → ok c a → ok' c a) : T.ReachableIf ok' init c := by
  induction hc with
  | init => exact .init
  | step a hc hok h ih => exact .step a ih (himp _ a hc hok) h

theorem Reachable.step (hc : T.Reachable init c) {a : Act L χ ε} (h : T.next c a = some c') :
    T.Reachable init c' :=
  ReachableIf.step a hc trivial h

theorem Reachable.run (hc : T.Reachable init c) (h : T.run c as = some c') :
    T.Reachable init c' := by
  induction as generalizing c with
  | nil =>
    obtain rfl := some.inj h
    exact hc
  | cons a as ih =>
    obtain ⟨c₁, h₁, h₂⟩ := bind_eq_some_iff.mp h
    exact ih (hc.step h₁) h₂

theorem ReachableIf.runIf {ok : Pool σ L → Act L χ ε → Bool}
    (hc : T.ReachableIf (fun c a => ok c a) init c) (h : T.runIf ok c as = some c') :
    T.ReachableIf (fun c a => ok c a) init c' := by
  induction as generalizing c with
  | nil =>
    obtain rfl := some.inj h
    exact hc
  | cons a as ih =>
    simp only [Threads.runIf] at h
    split at h
    · obtain ⟨c₁, h₁, h₂⟩ := bind_eq_some_iff.mp h
      exact ih (.step a hc ‹_› h₁) h₂
    · cases h

end Threads

end GolangBasics.Conc
