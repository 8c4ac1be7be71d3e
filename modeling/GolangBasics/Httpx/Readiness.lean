import GolangBasics.Httpx.Health

/-! When a 200 of the readiness handler can be relied on. A check without a stored result
reads as passing, and a late result of a replaced check is stored under the name of the new
one. -/
namespace GolangBasics.Httpx
open Conc Threads List Option

/-- An evaluation of the check has finished, in time or not. A check is registered only once,
so it was evaluated since then. -/
def Completed (m : State) (check : Nat) : Prop :=
  ∃ (k : Nat) (e : Evaluation), m.evaluations[k]? = some e ∧ e.check = check ∧ e.result.isSome

def State.Critical (m : State) (name : String) (check : Nat) : Prop :=
  (name, check) ∈ m.checks ∧ m.optional check = false

/-- A refresh stores a result only if the check under that name is still the one it is of. -/
def keepsCheck (c : Pool State Local) : Act Local Choice Env → Bool
  | .step i .go =>
    match c.threads[i]? with
    | some (.store _ out) => out.all fun item => item.evaluation.isNone ||
        c.shared.checks.all fun x => x.1 ≠ item.name || x.2 = item.check
    | _ => true
  | _ => true

def Extends (m m' : State) : Prop :=
  ∀ (k : Nat) (e : Evaluation), m.evaluations[k]? = some e →
    ∃ e', m'.evaluations[k]? = some e' ∧ e'.check = e.check ∧
      (e.result.isSome → e'.result.isSome)

/-- Every result is of the check that was evaluated, and what is stored under a name is of the
check registered there. -/
structure Sourced (m : State) : Prop where
  evaluated : ∀ (k : Nat) (e : Evaluation) (r : Result), m.evaluations[k]? = some e →
    e.result = some r → r.check = e.check
  stored : ∀ (name : String) (r : Result), m.results name = some r →
    Completed m r.check ∧ ∀ check, (name, check) ∈ m.checks → check = r.check

def Local.items : Local → List Item
  | .start _ _ out | .wait _ out | .store _ out => out
  | _ => []

def Local.todo : Local → List (String × Nat)
  | .start _ todo _ => todo
  | _ => []

inductive Refreshes (m : State) (l l' : Local) (m' : State) : Prop where
  /-- Nothing to the maps or the evaluations. -/
  | idle (htodo : l'.todo ⊆ l.todo) (hitems : l'.items.Sublist l.items) (mu : Bool)
      (hsame : m' = { m with refreshMu := mu })
  | copy (hperm : l'.todo.Perm m.checks) (hitems : l'.items = []) (hsame : m' = m)
  /-- The check is still running. -/
  | skip (name : String) (check : Nat) (htodo : l.todo = (name, check) :: l'.todo)
      (hitems : l'.items = l.items ++ [⟨name, check, none⟩]) (hsame : m' = m)
  | start (inline : Bool) (name : String) (check : Nat)
      (hl : l = .start inline ((name, check) :: l'.todo) l.items)
      (hrunning : m.running check = false)
      (hitems : l'.items = l.items ++ [⟨name, check, some m.evaluations.length⟩])
      (hm' : m' = { m.setRunning check true with
        evaluations := m.evaluations ++ [⟨check, none, false, none⟩] })
  | store (inline : Bool) (hl : l = .store inline l.items) (htodo : l'.todo = [])
      (hitems : l'.items = []) (hm' : m' = l.items.foldl State.store m)

def Started (m : State) (l : Local) : Prop :=
  ∀ item ∈ l.items, ∀ k, item.evaluation = some k →
    ∃ e, m.evaluations[k]? = some e ∧ e.check = item.check

variable {h : Health} {m m' : State} {l l' : Local} {c c' : Pool State Local} {i : Nat}

theorem refreshes_of_step {x : Choice} (hstep : h.step l x m = some (l', m')) :
    Refreshes m l l' m' := by
  cases l with
  | copy inline =>
    cases x with
    | go => cases hstep
    | order checks =>
      simp only [Health.step] at hstep
      split at hstep
      · rename_i hperm
        cases hstep
        exact .copy hperm rfl rfl
      · cases hstep
  | start inline todo out =>
    cases todo with
    | nil =>
      cases x <;> cases hstep
      exact .idle (List.Subset.refl _) (List.Sublist.refl _) m.refreshMu rfl
    | cons next todo =>
      obtain ⟨name, check⟩ := next
      cases x <;> simp only [Health.step, reduceCtorEq] at hstep
      split at hstep
      · cases hstep
        exact .skip name check rfl rfl rfl
      · rename_i hrunning
        cases hstep
        exact .start inline name check rfl (by simpa using hrunning) rfl rfl
  | wait inline out =>
    cases x <;> simp only [Health.step, reduceCtorEq] at hstep
    split at hstep
    · cases hstep
      exact .idle (List.Subset.refl _) (List.Sublist.refl _) m.refreshMu rfl
    · cases hstep
  | store inline out =>
    cases x <;> cases hstep
    cases inline <;> exact .store _ rfl rfl rfl rfl
  | probe =>
    cases x <;> cases hstep
    refine .idle ?_ ?_ m.refreshMu rfl <;> split <;> simp [Local.todo, Local.items]
  | stale | staleAgain =>
    cases x <;> cases hstep
    refine .idle ?_ ?_ m.refreshMu rfl <;> split <;> simp [Local.todo, Local.items]
  | lock =>
    cases x <;> simp only [Health.step, reduceCtorEq] at hstep
    split at hstep
    · cases hstep
    · cases hstep
      exact .idle (List.Subset.refl _) (List.Sublist.refl _) true rfl
  | unlock =>
    cases x <;> cases hstep
    exact .idle (List.Subset.refl _) (List.Sublist.refl _) false rfl
  | read =>
    cases x <;> cases hstep
    exact .idle (List.Subset.refl _) (List.Sublist.refl _) m.refreshMu rfl
  | refreshed | answered a => cases x <;> cases hstep

theorem extends_of_eq (heq : m'.evaluations = m.evaluations) : Extends m m' := by
  intro k e he
  exact ⟨e, by rw [heq, he], rfl, id⟩

theorem Completed.extends {check : Nat} (hc : Completed m check) (hext : Extends m m') :
    Completed m' check := by
  obtain ⟨k, e, he, hcheck, hresult⟩ := hc
  obtain ⟨e', he', hcheck', hresult'⟩ := hext k e he
  exact ⟨k, e', he', hcheck'.trans hcheck, hresult' hresult⟩

theorem Started.extends (hl : Started m l) (hext : Extends m m') : Started m' l := by
  intro item hitem k hk
  obtain ⟨e, he, hcheck⟩ := hl item hitem k hk
  obtain ⟨e', he', hcheck', -⟩ := hext k e he
  exact ⟨e', he', hcheck'.trans hcheck⟩

theorem Sourced.same (hm : Sourced m) (hevaluations : m'.evaluations = m.evaluations)
    (hchecks : m'.checks = m.checks) (hresults : m'.results = m.results) : Sourced m' := by
  constructor
  · rw [hevaluations]
    exact hm.evaluated
  · rw [hresults, hchecks]
    intro name r hr
    obtain ⟨hcompleted, hcheck⟩ := hm.stored name r hr
    exact ⟨hcompleted.extends (extends_of_eq hevaluations), hcheck⟩

@[simp] theorem setRunning_evaluations (m : State) (check : Nat) (b : Bool) :
    (m.setRunning check b).evaluations = m.evaluations := by
  unfold State.setRunning
  split <;> rfl

@[simp] theorem setRunning_checks (m : State) (check : Nat) (b : Bool) :
    (m.setRunning check b).checks = m.checks := by
  unfold State.setRunning
  split <;> rfl

@[simp] theorem setRunning_results (m : State) (check : Nat) (b : Bool) :
    (m.setRunning check b).results = m.results := by
  unfold State.setRunning
  split <;> rfl

/-- The new check has no result yet, and the others keep theirs. -/
theorem Sourced.register (hm : Sourced m) (name : String) (optional : Bool) :
    Sourced (m.register name optional) := by
  refine ⟨hm.evaluated, fun other r hr => ?_⟩
  simp only [State.register] at hr ⊢
  by_cases hname : other = name
  · subst hname
    simp at hr
  · rw [Function.update_of_ne hname] at hr
    obtain ⟨hcompleted, hcheck⟩ := hm.stored other r hr
    refine ⟨hcompleted, fun check hmem => hcheck check ?_⟩
    rcases mem_cons.mp hmem with heq | hmem
    · exact absurd (Prod.mk.inj heq).1 hname
    · exact mem_of_mem_filter hmem

theorem extends_append (m : State) (e : Evaluation) :
    Extends m { m with evaluations := m.evaluations ++ [e] } := by
  intro k e' he'
  have hlt := (List.getElem?_eq_some_iff.mp he').1
  exact ⟨e', by simp only [List.getElem?_append_left hlt, he'], rfl, id⟩

variable {e : Evaluation}

theorem Sourced.append (hm : Sourced m) (he : e.result = none) :
    Sourced { m with evaluations := m.evaluations ++ [e] } := by
  constructor
  · intro k e' r hk hr
    rcases Pool.spawn_cases hk with ⟨-, rfl⟩ | hk
    · rw [he] at hr
      cases hr
    · exact hm.evaluated k e' r hk hr
  · intro name r hr
    obtain ⟨hcompleted, hcheck⟩ := hm.stored name r hr
    exact ⟨hcompleted.extends (extends_append m e), hcheck⟩

theorem extends_set {k : Nat} (he : m.evaluations[k]? = some e) (e' : Evaluation)
    (hcheck : e'.check = e.check) (hresult : e.result.isSome → e'.result.isSome) :
    Extends m (m.setEvaluation k e') := by
  intro j x hx
  by_cases hj : j = k
  · subst hj
    obtain rfl : e = x := some.inj (he.symm.trans hx)
    exact ⟨e', Pool.set_self he, hcheck, hresult⟩
  · exact ⟨x, by simpa [State.setEvaluation, List.getElem?_set_ne (Ne.symm hj)] using hx, rfl, id⟩

theorem Sourced.setEvaluation (hm : Sourced m) {k : Nat} (he : m.evaluations[k]? = some e)
    (e' : Evaluation) (hcheck : e'.check = e.check) (hresult : e.result.isSome → e'.result.isSome)
    (hnew : ∀ r, e'.result = some r → r.check = e'.check) : Sourced (m.setEvaluation k e') := by
  constructor
  · intro j x r hx hr
    rcases Pool.set_cases hx with ⟨-, rfl⟩ | ⟨-, hx⟩
    · exact hnew r hr
    · exact hm.evaluated j x r hx hr
  · intro name r hr
    obtain ⟨hcompleted, hstored⟩ := hm.stored name r hr
    exact ⟨hcompleted.extends (extends_set he e' hcheck hresult), hstored⟩

theorem Sourced.finish (hm : Sourced m) {k : Nat} (he : m.evaluations[k]? = some e)
    (err : Option String) : Sourced (m.finish k e err) ∧ Extends m (m.finish k e err) := by
  have hset := hm.setEvaluation he { e with result := some ⟨err, m.clock, e.check, m.finished⟩ }
    rfl (fun _ => rfl) (by simp)
  exact ⟨hset.same rfl rfl rfl, extends_set he _ rfl fun _ => rfl⟩

theorem store_evaluations (m : State) (item : Item) :
    (m.store item).evaluations = m.evaluations := by
  unfold State.store
  split
  · rfl
  · split <;> rfl

theorem store_checks (m : State) (item : Item) : (m.store item).checks = m.checks := by
  unfold State.store
  split
  · rfl
  · split <;> rfl

theorem out_eq_some {item : Item} {r : Result} (hout : m.out item = some r) :
    ∃ k e, item.evaluation = some k ∧ m.evaluations[k]? = some e ∧ e.result = some r := by
  obtain ⟨e, he, hr⟩ := bind_eq_some_iff.mp hout
  obtain ⟨k, hk, he⟩ := bind_eq_some_iff.mp he
  exact ⟨k, e, hk, he, hr⟩

def Item.Fits (m : State) (item : Item) : Prop :=
  ∀ k, item.evaluation = some k →
    (∃ e, m.evaluations[k]? = some e ∧ e.check = item.check) ∧
      ∀ check, (item.name, check) ∈ m.checks → check = item.check

theorem Sourced.store {item : Item} (hm : Sourced m) (hitem : item.Fits m) :
    Sourced (m.store item) := by
  have hext : Extends m (m.store item) := extends_of_eq (store_evaluations m item)
  refine ⟨by rw [store_evaluations]; exact hm.evaluated, fun name r hr => ?_⟩
  rw [store_checks]
  unfold State.store at hr
  split at hr
  · obtain ⟨hcompleted, hcheck⟩ := hm.stored name r hr
    exact ⟨hcompleted.extends hext, hcheck⟩
  · rename_i out hout
    split at hr
    · by_cases hname : name = item.name
      · subst hname
        obtain rfl : out = r := by simpa using hr
        obtain ⟨k, e, hk, he, hresult⟩ := out_eq_some hout
        obtain ⟨⟨e', he', hcheck⟩, hkeep⟩ := hitem k hk
        obtain rfl : e = e' := some.inj (he.symm.trans he')
        have hsource : out.check = item.check := (hm.evaluated k e out he hresult).trans hcheck
        have hcompleted : Completed m out.check :=
          ⟨k, e, he, hcheck.trans hsource.symm, by simp [hresult]⟩
        exact ⟨hcompleted.extends hext, fun check hmem => (hkeep check hmem).trans hsource.symm⟩
      · simp only [Function.update_of_ne hname] at hr
        obtain ⟨hcompleted, hcheck⟩ := hm.stored name r hr
        exact ⟨hcompleted.extends hext, hcheck⟩
    · obtain ⟨hcompleted, hcheck⟩ := hm.stored name r hr
      exact ⟨hcompleted.extends hext, hcheck⟩

/-- The run lemma of the loop that stores, by induction on the items. -/
theorem Sourced.foldl_store {out : List Item} (hm : Sourced m)
    (hout : ∀ item ∈ out, item.Fits m) :
    Sourced (out.foldl State.store m) ∧ Extends m (out.foldl State.store m) := by
  induction out generalizing m with
  | nil => exact ⟨hm, extends_of_eq rfl⟩
  | cons item out ih =>
    have hfits : ∀ x ∈ out, x.Fits (m.store item) := by
      intro x hx k hk
      rw [store_evaluations, store_checks]
      exact hout x (mem_cons_of_mem _ hx) k hk
    obtain ⟨hsourced, hext⟩ := ih (hm.store (hout item mem_cons_self)) hfits
    refine ⟨hsourced, fun k e he => hext k e ?_⟩
    rw [store_evaluations]
    exact he

/-- The steps of `Register`, the clock and the evaluations. -/
theorem env_sourced {e : Env} (hm : Sourced m) (henv : h.env e m = some m') :
    Sourced m' ∧ Extends m m' := by
  cases e with
  | register name optional =>
    cases henv
    exact ⟨hm.register name optional, extends_of_eq rfl⟩
  | setReady ready =>
    cases henv
    exact ⟨hm.same rfl rfl rfl, extends_of_eq rfl⟩
  | tick d =>
    cases henv
    exact ⟨hm.same rfl rfl rfl, extends_of_eq rfl⟩
  | returns k err =>
    simp only [Health.env] at henv
    split at henv
    · rename_i check cleared result he
      cases henv
      have hnew : ∀ r, result = some r → r.check = check := fun r => hm.evaluated k _ r he
      exact ⟨hm.setEvaluation he _ rfl id hnew, extends_set he _ rfl id⟩
    · cases henv
  | clears k =>
    simp only [Health.env] at henv
    split at henv
    · rename_i check err result he
      cases henv
      have hnew : ∀ r, result = some r → r.check = check := fun r => hm.evaluated k _ r he
      have hset := hm.setEvaluation he ⟨check, some err, true, result⟩ rfl id hnew
      refine ⟨hset.same (setRunning_evaluations _ _ _) (setRunning_checks _ _ _)
        (setRunning_results _ _ _), fun j x hx => ?_⟩
      rw [setRunning_evaluations]
      exact extends_set he ⟨check, some err, true, result⟩ rfl id j x hx
    · cases henv
  | selects k ended =>
    simp only [Health.env] at henv
    split at henv
    · rename_i check err cleared he
      cases henv
      exact hm.finish he err
    · rename_i check done cleared he
      cases henv
      exact hm.finish he (some h.timedOut)
    · cases henv

structure Steps (m : State) (l' : Local) (m' : State) : Prop where
  sourced : Sourced m'
  grows : Extends m m'
  started : Started m' l'

theorem step_steps {x : Choice} (hm : Sourced m) (hl : Started m l)
    (hfits : ∀ inline out, l = .store inline out → ∀ item ∈ out, item.Fits m)
    (hstep : h.step l x m = some (l', m')) : Steps m l' m' := by
  cases refreshes_of_step hstep with
  | idle _ hitems mu hsame =>
    subst hsame
    exact ⟨hm.same rfl rfl rfl, extends_of_eq rfl, fun item hitem => hl item (hitems.subset hitem)⟩
  | copy _ hitems hsame =>
    subst hsame
    exact ⟨hm, extends_of_eq rfl, by simp [Started, hitems]⟩
  | skip name check _ hitems hsame =>
    subst hsame
    refine ⟨hm, extends_of_eq rfl, fun item hitem k hk => ?_⟩
    rcases mem_append.mp (hitems ▸ hitem) with hitem | hitem
    · exact hl item hitem k hk
    · obtain rfl := mem_singleton.mp hitem
      cases hk
  | start inline name check _ _ hitems hm' =>
    subst hm'
    have hext : Extends m { m.setRunning check true with
        evaluations := m.evaluations ++ [⟨check, none, false, none⟩] } := extends_append m _
    refine ⟨?_, hext, fun item hitem k hk => ?_⟩
    · exact (hm.append (e := ⟨check, none, false, none⟩) rfl).same rfl
        (setRunning_checks m check true) (setRunning_results m check true)
    · rcases mem_append.mp (hitems ▸ hitem) with hitem | hitem
      · exact hl.extends hext item hitem k hk
      · obtain rfl := mem_singleton.mp hitem
        obtain rfl : m.evaluations.length = k := some.inj hk
        exact ⟨⟨check, none, false, none⟩, by simp, rfl⟩
  | store inline hstore _ hitems hm' =>
    obtain ⟨hsourced, hext⟩ := hm.foldl_store (hfits inline l.items hstore)
    subst hm'
    exact ⟨hsourced, hext, by simp [Started, hitems]⟩

/-- In a run that keeps to the condition, everything stored is of the registered check. -/
theorem sourced_of_reachable
    (hc : h.handlers.ReachableIf (fun c a => keepsCheck c a) {} c) :
    Sourced c.shared ∧ Pool.Each (fun _ => Started) c := by
  refine hc.invariant (I := fun c => Sourced c.shared ∧ Pool.Each (fun _ => Started) c)
    ⟨⟨by simp, by simp⟩, by simp [Pool.Each]⟩ ?_ ?_ ?_
  · intro c l ⟨hm, hstarted⟩ hl
    have hnone : l.items = [] := by
      cases l <;> first | rfl | cases hl
    refine ⟨hm, Pool.each_spawn hstarted fun item hitem => ?_⟩
    rw [hnone] at hitem
    cases hitem
  · intro c i x l l' m ⟨hm, hstarted⟩ hok hi hstep
    have hfits : ∀ inline out, l = .store inline out → ∀ item ∈ out, item.Fits c.shared := by
      rintro inline out rfl item hitem k hk
      refine ⟨hstarted i _ hi item hitem k hk, fun check hmem => ?_⟩
      cases x with
      | order checks => cases hstep
      | go =>
        have hitems : ∀ x ∈ out, x.evaluation = none ∨
            ∀ n j, (n, j) ∈ c.shared.checks → n = x.name → j = x.check := by
          simpa [keepsCheck, hi, imp_iff_not_or] using hok
        rcases hitems item hitem with hnone | hkeep
        · rw [hk] at hnone
          cases hnone
        · exact hkeep item.name check hmem rfl
    have hsteps := step_steps hm (hstarted i l hi) hfits hstep
    exact ⟨hsteps.sourced, Pool.each_set hstarted hsteps.started
      fun _ _ _ _ hl => hl.extends hsteps.grows⟩
  · intro c e m ⟨hm, hstarted⟩ _ henv
    obtain ⟨hsourced, hext⟩ := env_sourced hm henv
    exact ⟨hsourced, Pool.each_env hstarted fun _ _ hl => hl.extends hext⟩

theorem answer_checks (m : State) :
    m.answer.checks = m.checks.map fun x => (x.1, (m.err x.1).getD "ok") := by
  unfold State.answer
  simp only
  split
  · rfl
  · split <;> rfl

/-- The answer is 200 exactly when no critical check reads as failing. -/
theorem answer_status_iff :
    m.answer.status = 200 ↔ ∀ name check, m.Critical name check → m.err name = none := by
  have hany : ((m.checks.filter fun x => (m.err x.1).isSome).any fun x => !m.optional x.2) = true ↔
      ∃ name check, m.Critical name check ∧ (m.err name).isSome := by
    simp only [List.any_eq_true, mem_filter, Prod.exists, Bool.not_eq_true', State.Critical]
    constructor
    · rintro ⟨name, check, ⟨hmem, herr⟩, hcritical⟩
      exact ⟨name, check, ⟨hmem, hcritical⟩, herr⟩
    · rintro ⟨name, check, ⟨hmem, hcritical⟩, herr⟩
      exact ⟨name, check, ⟨hmem, herr⟩, hcritical⟩
  have hstatus : m.answer.status = 200 ↔
      ¬∃ name check, m.Critical name check ∧ (m.err name).isSome := by
    rw [← hany]
    unfold State.answer
    simp only
    split
    · rename_i hfailing
      simp [hfailing]
    · rename_i hfailing
      split <;> simp [hfailing]
  rw [hstatus]
  constructor
  · intro hnone name check hcritical
    by_contra herr
    exact hnone ⟨name, check, hcritical, isSome_iff_ne_none.mpr herr⟩
  · rintro hall ⟨name, check, hcritical, herr⟩
    rw [hall name check hcritical] at herr
    cases herr

/-- What a 200 promises of every critical check registered then, and what is promised of one
that was never evaluated. -/
def FailsClosed (m : State) (a : Answer) : Prop :=
  (a.status = 200 → ∀ name check, m.Critical name check →
    Completed m check ∧ ∃ r, m.results name = some r ∧ r.check = check ∧ r.err = none) ∧
  ∀ name check, m.Critical name check → ¬Completed m check → (name, "ok") ∉ a.checks

/-- No critical check without a stored result makes the answer wrong: each has finished an
evaluation that is still to be stored, and another critical check has failed. -/
def Covered (m : State) : Prop :=
  ∀ name check, m.Critical name check → m.results name = none →
    Completed m check ∧ ∃ name' check' r, m.Critical name' check' ∧ m.results name' = some r ∧
      r.err ≠ none

theorem failsClosed_iff (hm : Sourced m) : FailsClosed m m.answer ↔ Covered m := by
  constructor
  · rintro ⟨hready, hnever⟩ name check hcritical hnone
    have herr : m.err name = none := by simp [State.err, hnone]
    have hok : (name, "ok") ∈ m.answer.checks := by
      rw [answer_checks]
      exact List.mem_map.mpr ⟨(name, check), hcritical.1, by simp [herr]⟩
    refine ⟨not_not.mp fun hnot => hnever name check hcritical hnot hok, ?_⟩
    by_contra hpassing
    have hstatus : m.answer.status = 200 := by
      refine answer_status_iff.mpr fun name' check' hcritical' => ?_
      by_contra herr'
      obtain ⟨text, herr'⟩ := Option.ne_none_iff_exists'.mp herr'
      obtain ⟨r, hr, hrerr⟩ := bind_eq_some_iff.mp herr'
      exact hpassing ⟨name', check', r, hcritical', hr, by simp [hrerr]⟩
    obtain ⟨-, r, hr, -⟩ := hready hstatus name check hcritical
    rw [hnone] at hr
    cases hr
  · intro hcovered
    have hstored : ∀ name check r, m.Critical name check → m.results name = some r →
        r.check = check ∧ Completed m check := by
      intro name check r hcritical hr
      obtain ⟨hcompleted, hcheck⟩ := hm.stored name r hr
      rw [hcheck check hcritical.1]
      exact ⟨rfl, hcompleted⟩
    refine ⟨fun hstatus name check hcritical => ?_, fun name check hcritical hnever hok => ?_⟩
    · have hpassing := answer_status_iff.mp hstatus
      cases hr : m.results name with
      | none =>
        obtain ⟨-, name', check', r, hcritical', hr', hfailed⟩ := hcovered name check hcritical hr
        have hpass := hpassing name' check' hcritical'
        simp only [State.err, hr', bind_some] at hpass
        exact absurd hpass hfailed
      | some r =>
        obtain ⟨hcheck, hcompleted⟩ := hstored name check r hcritical hr
        have hpass := hpassing name check hcritical
        simp only [State.err, hr, bind_some] at hpass
        exact ⟨hcompleted, r, rfl, hcheck, hpass⟩
    · cases hr : m.results name with
      | none => exact hnever (hcovered name check hcritical hr).1
      | some r => exact hnever (hstored name check r hcritical hr).2

/-- In every run in which no refresh stores the result of a replaced check, the readiness
handler fails closed at the step at which it reads the results exactly when no critical
check without a stored result can make its answer wrong. -/
theorem readiness_fails_closed
    (hc : h.handlers.ReachableIf (fun c a => keepsCheck c a) {} c) (hi : c.threads[i]? = some .read)
    (hnext : h.handlers.next c (.step i .go) = some c') :
    ∃ a, c'.threads[i]? = some (.answered a) ∧ (FailsClosed c.shared a ↔ Covered c.shared) := by
  simp only [Threads.next, hi, Health.handlers, Health.step, map_some, Option.some.injEq] at hnext
  subst hnext
  exact ⟨c.shared.answer, Pool.set_self hi, failsClosed_iff (sourced_of_reachable hc).1⟩

def everyTen : Health := ⟨10, 3, "check did not return within 3ns: context deadline exceeded"⟩

def passed : List (Act Local Choice Env) :=
  [.env (.register "db" false), .env (.setReady true),
    .spawn (.copy false), .step 0 (.order [("db", 0)]), .step 0 .go, .step 0 .go,
    .env (.returns 0 none), .env (.selects 0 false), .step 0 .go, .step 0 .go,
    .spawn .probe, .step 1 .go, .step 1 .go]

theorem readiness_fails_closed_passed :
    ∃ c c', everyTen.handlers.runIf keepsCheck ⟨{}, []⟩ passed = some c ∧
      everyTen.handlers.next c (.step 1 .go) = some c' ∧
      c'.threads[1]? = some (.answered ⟨200, "ready", [("db", "ok")]⟩) ∧
      FailsClosed c.shared ⟨200, "ready", [("db", "ok")]⟩ := by
  obtain ⟨c, c', hrun, hread, hchecks, hstored, hnext, hanswered⟩ :
      ∃ c c', everyTen.handlers.runIf keepsCheck ⟨{}, []⟩ passed = some c ∧
        c.threads[1]? = some .read ∧ c.shared.checks = [("db", 0)] ∧
        c.shared.results "db" = some ⟨none, 0, 0, 0⟩ ∧
        everyTen.handlers.next c (.step 1 .go) = some c' ∧
        c'.threads[1]? = some (.answered ⟨200, "ready", [("db", "ok")]⟩) :=
    ⟨_, _, rfl, rfl, rfl, rfl, rfl, rfl⟩
  have hc := ReachableIf.runIf (T := everyTen.handlers) .init hrun
  obtain ⟨a, ha, hiff⟩ := readiness_fails_closed hc hread hnext
  have hcovered : Covered c.shared := by
    intro name check hcritical hnone
    have hmem := hcritical.1
    rw [hchecks] at hmem
    obtain ⟨rfl, -⟩ := Prod.mk.inj (mem_singleton.mp hmem)
    rw [hstored] at hnone
    cases hnone
  obtain rfl : a = ⟨200, "ready", [("db", "ok")]⟩ := by
    simpa using ha.symm.trans hanswered
  exact ⟨c, c', hrun, hnext, hanswered, hiff.mpr hcovered⟩

/-- The background refresh has started the check, which does not return yet. A probe finds no
result and refreshes inline, which skips the running check, and reads the results. -/
def stillRunning : List (Act Local Choice Env) :=
  [.env (.register "db" false), .env (.setReady true),
    .spawn (.copy false), .step 0 (.order [("db", 0)]), .step 0 .go,
    .spawn .probe, .step 1 .go, .step 1 .go, .step 1 .go, .step 1 .go,
    .step 1 (.order [("db", 0)]), .step 1 .go, .step 1 .go, .step 1 .go, .step 1 .go, .step 1 .go]

/-- The handler answers 200, and "ok" for a critical check that was never evaluated. -/
theorem stillRunning_ready :
    ∃ c c', everyTen.handlers.runIf keepsCheck ⟨{}, []⟩ stillRunning = some c ∧
      c.shared.Critical "db" 0 ∧ ¬Completed c.shared 0 ∧
      everyTen.handlers.next c (.step 1 .go) = some c' ∧
      c'.threads[1]? = some (.answered ⟨200, "ready", [("db", "ok")]⟩) := by
  refine ⟨_, _, rfl, ⟨mem_singleton_self _, rfl⟩, ?_, rfl, rfl⟩
  rintro ⟨k, e, he, -, hresult⟩
  obtain rfl : e = ⟨0, none, false, none⟩ := mem_singleton.mp (mem_of_getElem? he)
  cases hresult

def Item.evaluates (name : String) (item : Item) : Bool :=
  item.name = name && item.evaluation.isSome

def State.resultOf (m : State) (k : Nat) : Option Result :=
  (m.evaluations[k]?).bind Evaluation.result

inductive Moves (m m' : State) : Env → Prop where
  | register (name : String) (optional : Bool) (hm' : m' = m.register name optional) :
      Moves m m' (.register name optional)
  | finish (k : Nat) (ended : Bool) (e : Evaluation) (err : Option String)
      (he : m.evaluations[k]? = some e) (hnone : e.result = none) (hm' : m' = m.finish k e err) :
      Moves m m' (.selects k ended)
  | other (e : Env) (hchecks : m'.checks = m.checks) (hresults : m'.results = m.results)
      (hup : m'.up = m.up) (hobjects : m'.objects.length = m.objects.length)
      (hoptional : ∀ check, m'.optional check = m.optional check)
      (hresult : ∀ k, m'.resultOf k = m.resultOf k) (hfinished : m'.finished = m.finished) :
      Moves m m' e

theorem items_of_starts (hl : l.starts) : l.items = [] := by
  cases l <;> first | rfl | cases hl

theorem todo_of_starts (hl : l.starts) : l.todo = [] := by
  cases l <;> first | rfl | cases hl

theorem length_setRunning (m : State) (check : Nat) (running : Bool) :
    (m.setRunning check running).objects.length = m.objects.length := by
  unfold State.setRunning
  split
  · exact length_set
  · rfl

theorem optional_setRunning (m : State) (check other : Nat) (running : Bool) :
    (m.setRunning check running).optional other = m.optional other := by
  unfold State.setRunning
  split
  · rename_i found hfound
    unfold State.optional
    by_cases hother : other = check
    · subst hother
      simp only [Pool.set_self hfound, hfound]
    · simp only [List.getElem?_set_ne (Ne.symm hother)]
  · rfl

theorem setRunning_frame (m : State) (check : Nat) (running : Bool) :
    m.setRunning check running = { m with objects := (m.setRunning check running).objects } := by
  unfold State.setRunning
  split <;> rfl

theorem resultOf_setEvaluation {k : Nat} {e e' : Evaluation} (he : m.evaluations[k]? = some e)
    (hsame : e'.result = e.result) (j : Nat) :
    (m.setEvaluation k e').resultOf j = m.resultOf j := by
  unfold State.resultOf State.setEvaluation
  by_cases hj : j = k
  · subst hj
    simp only [Pool.set_self he, he, bind_some, hsame]
  · simp only [List.getElem?_set_ne (Ne.symm hj)]

theorem moves_of_env {e : Env} (henv : h.env e m = some m') : Moves m m' e := by
  cases e with
  | register name optional =>
    cases henv
    exact .register name optional rfl
  | setReady ready | tick d =>
    cases henv
    exact .other _ rfl rfl rfl rfl (fun _ => rfl) (fun _ => rfl) rfl
  | returns k err =>
    simp only [Health.env] at henv
    split at henv
    · rename_i check cleared result he
      cases henv
      exact .other _ rfl rfl rfl rfl (fun _ => rfl) (resultOf_setEvaluation he rfl) rfl
    · cases henv
  | clears k =>
    simp only [Health.env] at henv
    split at henv
    · rename_i check err result he
      cases henv
      rw [setRunning_frame]
      refine .other _ rfl rfl rfl ?_ (fun other => ?_) (fun j => ?_) rfl
      · exact length_setRunning (m.setEvaluation k ⟨check, some err, true, result⟩) check _
      · exact optional_setRunning (m.setEvaluation k ⟨check, some err, true, result⟩) check other _
      · have hsame : (⟨check, some err, true, result⟩ : Evaluation).result = result := rfl
        exact resultOf_setEvaluation he hsame j
    · cases henv
  | selects k ended =>
    simp only [Health.env] at henv
    split at henv
    · rename_i check err cleared he
      cases henv
      exact .finish k _ _ err he rfl rfl
    · rename_i check done cleared he
      cases henv
      exact .finish k _ _ (some h.timedOut) he rfl rfl
    · cases henv

theorem resultOf_finish {k : Nat} {e : Evaluation} (he : m.evaluations[k]? = some e)
    (err : Option String) (j : Nat) :
    (m.finish k e err).resultOf j =
      if j = k then some ⟨err, m.clock, e.check, m.finished⟩ else m.resultOf j := by
  unfold State.resultOf State.finish State.setEvaluation
  by_cases hj : j = k
  · subst hj
    simp [Pool.set_self he]
  · simp [List.getElem?_set_ne (Ne.symm hj), hj]

theorem resultOf_append (m : State) (e : Evaluation) (he : e.result = none) (j : Nat) :
    ({ m with evaluations := m.evaluations ++ [e] } : State).resultOf j = m.resultOf j := by
  unfold State.resultOf
  by_cases hj : j < m.evaluations.length
  · simp only [List.getElem?_append_left hj]
  · have hlast : (m.evaluations ++ [e])[j]?.bind Evaluation.result = none := by
      rcases Nat.lt_or_ge m.evaluations.length j with hlt | hge
      · rw [List.getElem?_eq_none (by simp; omega)]
        rfl
      · obtain rfl : j = m.evaluations.length := by omega
        simp [he]
    rw [hlast, List.getElem?_eq_none (by omega)]
    rfl

theorem out_eq_bind (m : State) (item : Item) : m.out item = item.evaluation.bind m.resultOf := by
  unfold State.out State.resultOf
  cases item.evaluation <;> rfl

theorem store_frame (m : State) (item : Item) :
    ∃ results up, m.store item = { m with results := results, up := up } := by
  unfold State.store
  split
  · exact ⟨m.results, m.up, rfl⟩
  · split
    · exact ⟨_, _, rfl⟩
    · exact ⟨m.results, m.up, rfl⟩

theorem foldl_store_frame (out : List Item) (m : State) :
    ∃ results up, out.foldl State.store m = { m with results := results, up := up } := by
  induction out generalizing m with
  | nil => exact ⟨m.results, m.up, rfl⟩
  | cons item out ih =>
    obtain ⟨results, up, hfirst⟩ := store_frame m item
    obtain ⟨results', up', hrest⟩ := ih (m.store item)
    exact ⟨results', up', by rw [foldl_cons, hrest, hfirst]⟩

theorem Refreshes.frame (hstep : Refreshes m l l' m') :
    m'.checks = m.checks ∧ m'.finished = m.finished ∧ m'.objects.length = m.objects.length := by
  cases hstep with
  | idle _ _ mu hsame => simp [hsame]
  | copy _ _ hsame | skip _ _ _ _ hsame => simp [hsame]
  | start inline name check _ _ _ hm' =>
    refine ⟨?_, ?_, hm' ▸ length_setRunning m check true⟩ <;> rw [hm', setRunning_frame]
  | store inline _ _ _ hm' =>
    obtain ⟨results, up, hframe⟩ := foldl_store_frame l.items m
    simp [hm', hframe]

theorem store_out (m : State) (item other : Item) : (m.store item).out other = m.out other := by
  obtain ⟨results, up, hstore⟩ := store_frame m item
  rw [hstore]
  rfl

/-- What is stored under a name after the loop was there before, or is the result of an item of
that name. -/
theorem foldl_store_results (out : List Item) (m : State) (name : String) :
    (out.foldl State.store m).results name = m.results name ∨
      ∃ item ∈ out, item.name = name ∧ ∃ r, m.out item = some r ∧
        (out.foldl State.store m).results name = some r := by
  induction out generalizing m with
  | nil => exact .inl rfl
  | cons item out ih =>
    rw [foldl_cons]
    rcases ih (m.store item) with hsame | ⟨x, hx, hname, r, hr, hstored⟩
    · rw [hsame]
      unfold State.store
      split
      · exact .inl rfl
      · rename_i r hr
        split
        · by_cases hname : name = item.name
          · subst hname
            exact .inr ⟨item, mem_cons_self, rfl, r, hr, by simp⟩
          · exact .inl (Function.update_of_ne hname _ _)
        · exact .inl rfl
    · rw [store_out] at hr
      exact .inr ⟨x, mem_cons_of_mem _ hx, hname, r, hr, hstored⟩

end GolangBasics.Httpx
