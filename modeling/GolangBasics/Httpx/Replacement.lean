import GolangBasics.Httpx.Readiness

/-! Registering a check anew. `refresh` stores a result if some check is still registered under
the name, whichever it is. -/
namespace GolangBasics.Httpx
open Conc Threads List Option

/-- A refresh has copied a check under the name and may still store a result of it. -/
def Local.holds (name : String) (l : Local) : Bool :=
  l.todo.any (·.1 = name) || l.items.any (Item.evaluates name)

/-- A check is registered only when no refresh holds one under its name. -/
def registersIdle (c : Pool State Local) : Act Local Choice Env → Bool
  | .env (.register name _) => c.threads.all fun l => !l.holds name
  | _ => true

/-- Every stored result is of the check registered under its name, and every series exports one
of these results with the criticality of its check. -/
structure TakesEffect (m : State) : Prop where
  results : ∀ name r, m.results name = some r → ∀ check, (name, check) ∈ m.checks ↔ check = r.check
  series : ∀ name critical v, m.up name critical = some v →
    ∃ r, m.results name = some r ∧ critical = !m.optional r.check ∧ v = r.err.isNone

def Local.Current (m : State) (l : Local) : Prop :=
  l.todo ⊆ m.checks ∧
    ∀ item ∈ l.items, item.evaluation.isSome → (item.name, item.check) ∈ m.checks

structure Keyed (m : State) : Prop where
  unique : ∀ name a b, (name, a) ∈ m.checks → (name, b) ∈ m.checks → a = b
  known : ∀ name check, (name, check) ∈ m.checks → check < m.objects.length

/-- The series are those of the stored results, which are of registered names. -/
structure Exported (m : State) : Prop where
  registered : ∀ name r, m.results name = some r → ∃ check, (name, check) ∈ m.checks
  series : ∀ name critical v, m.up name critical = some v →
    ∃ r, m.results name = some r ∧ critical = !m.optional r.check ∧ v = r.err.isNone

variable {h : Health} {m m' : State} {l l' : Local} {c c' : Pool State Local} {i : Nat}

theorem Keyed.same (hm : Keyed m) (hchecks : m'.checks = m.checks)
    (hobjects : m'.objects.length = m.objects.length) : Keyed m' := by
  constructor
  · rw [hchecks]
    exact hm.unique
  · rw [hchecks, hobjects]
    exact hm.known

theorem Keyed.register (hm : Keyed m) (name : String) (optional : Bool) :
    Keyed (m.register name optional) := by
  constructor
  · intro other a b ha hb
    simp only [State.register, mem_cons, mem_filter, Prod.mk.injEq,
      decide_eq_true_eq] at ha hb
    rcases ha with ⟨rfl, rfl⟩ | ⟨ha, hne⟩
    · rcases hb with ⟨-, rfl⟩ | ⟨-, hne⟩
      · rfl
      · exact absurd rfl hne
    · rcases hb with ⟨rfl, -⟩ | ⟨hb, -⟩
      · exact absurd rfl hne
      · exact hm.unique other a b ha hb
  · intro other check hmem
    simp only [State.register, mem_cons, mem_filter, Prod.mk.injEq,
      length_append, length_singleton] at hmem ⊢
    rcases hmem with ⟨-, rfl⟩ | ⟨hmem, -⟩
    · exact Nat.lt_succ_self _
    · exact Nat.lt_succ_of_lt (hm.known other check hmem)

theorem Local.Current.same (hl : l.Current m) (hchecks : m'.checks = m.checks) :
    l.Current m' := by
  unfold Local.Current
  rw [hchecks]
  exact hl

theorem Local.Current.step (hl : l.Current m) (hstep : Refreshes m l l' m') : l'.Current m' := by
  refine Local.Current.same ?_ hstep.frame.1
  cases hstep with
  | idle htodo hitems =>
    exact ⟨fun x hx => hl.1 (htodo hx), fun item hitem => hl.2 item (hitems.subset hitem)⟩
  | copy hperm hitems => exact ⟨hperm.subset, by simp [hitems]⟩
  | skip name check htodo hitems =>
    refine ⟨fun x hx => hl.1 (by rw [htodo]; exact mem_cons_of_mem _ hx), ?_⟩
    intro item hitem hsome
    rw [hitems] at hitem
    rcases mem_append.mp hitem with hitem | hitem
    · exact hl.2 item hitem hsome
    · obtain rfl := mem_singleton.mp hitem
      cases hsome
  | start inline name check hstart _ hitems =>
    have htodo : l.todo = (name, check) :: l'.todo := by rw [hstart]; rfl
    refine ⟨fun x hx => hl.1 (by rw [htodo]; exact mem_cons_of_mem _ hx), ?_⟩
    intro item hitem hsome
    rw [hitems] at hitem
    rcases mem_append.mp hitem with hitem | hitem
    · exact hl.2 item hitem hsome
    · obtain rfl := mem_singleton.mp hitem
      exact hl.1 (by rw [htodo]; exact mem_cons_self)
  | store inline _ htodo hitems => exact ⟨by simp [htodo], by simp [hitems]⟩

theorem Local.Current.register {name : String} {optional : Bool} (hl : l.Current m)
    (hidle : l.holds name = false) : l.Current (m.register name optional) := by
  simp only [Local.holds, Bool.or_eq_false_iff, List.any_eq_false, decide_eq_true_eq] at hidle
  obtain ⟨htodo, hitems⟩ := hidle
  simp only [Local.Current, State.register]
  refine ⟨fun x hx => ?_, fun item hitem hsome => ?_⟩
  · refine mem_cons_of_mem _ (mem_filter.mpr ⟨hl.1 hx, ?_⟩)
    simpa using htodo x hx
  · refine mem_cons_of_mem _ (mem_filter.mpr ⟨hl.2 item hitem hsome, ?_⟩)
    have hname := hitems item hitem
    simpa [Item.evaluates, hsome] using hname

theorem current_of_reachable (hc : h.handlers.ReachableIf (fun c a => registersIdle c a) {} c) :
    Keyed c.shared ∧ Pool.Each (fun _ => fun m l => l.Current m) c := by
  refine hc.invariant
    (I := fun c => Keyed c.shared ∧ Pool.Each (fun _ => fun m l => l.Current m) c)
    ⟨⟨by simp, by simp⟩, by simp [Pool.Each]⟩ ?_ ?_ ?_
  · rintro c l ⟨hkeyed, hcurrent⟩ hl
    refine ⟨hkeyed, Pool.each_spawn hcurrent ⟨?_, ?_⟩⟩
    · simp [todo_of_starts hl]
    · simp [items_of_starts hl]
  · rintro c i x l l' m ⟨hkeyed, hcurrent⟩ _ hi hstep
    have hrefresh := refreshes_of_step hstep
    exact ⟨hkeyed.same hrefresh.frame.1 hrefresh.frame.2.2,
      Pool.each_set hcurrent ((hcurrent i l hi).step hrefresh)
        fun _ _ _ _ hl => hl.same hrefresh.frame.1⟩
  · rintro c e m ⟨hkeyed, hcurrent⟩ hok henv
    cases moves_of_env henv with
    | register name optional hm' =>
      subst hm'
      refine ⟨hkeyed.register name optional, fun j k hk => ?_⟩
      have hidle : ∀ l ∈ c.threads, l.holds name = false := by simpa [registersIdle] using hok
      exact (hcurrent j k hk).register (hidle k (mem_of_getElem? hk))
    | finish k ended e err _ _ hm' =>
      subst hm'
      exact ⟨hkeyed.same rfl rfl, Pool.each_env hcurrent fun _ _ hl => hl.same rfl⟩
    | other e hchecks _ _ hobjects =>
      exact ⟨hkeyed.same hchecks hobjects, Pool.each_env hcurrent fun _ _ hl => hl.same hchecks⟩

/-- In such a run a refresh stores only results of checks that are still registered. -/
theorem keepsCheck_of_registersIdle
    (hc : h.handlers.ReachableIf (fun c a => registersIdle c a) {} c) :
    h.handlers.ReachableIf (fun c a => keepsCheck c a) {} c := by
  refine hc.imp fun c a hc _ => ?_
  obtain ⟨hkeyed, hcurrent⟩ := current_of_reachable hc
  unfold keepsCheck
  split
  · split
    · rename_i i inline out hi
      simp only [List.all_eq_true, Bool.or_eq_true, decide_eq_true_eq, isNone_iff_eq_none]
      intro item hitem
      by_cases hnone : item.evaluation = none
      · exact .inl hnone
      · refine .inr fun x hx => ?_
        have hheld := (hcurrent _ _ hi).2 item hitem (isSome_iff_ne_none.mpr hnone)
        by_cases hname : x.1 = item.name
        · refine .inr (hkeyed.unique item.name _ _ ?_ hheld)
          rw [← hname]
          exact hx
        · exact .inl (by simpa using hname)
    · rfl
  · rfl

theorem Exported.same (hm : Exported m) (hchecks : m'.checks = m.checks)
    (hresults : m'.results = m.results) (hup : m'.up = m.up)
    (hoptional : ∀ check, m'.optional check = m.optional check) : Exported m' := by
  constructor
  · rw [hresults, hchecks]
    exact hm.registered
  · simp only [hresults, hup, hoptional]
    exact hm.series

theorem Exported.register (hm : Exported m) (hkeyed : Keyed m) (hs : Sourced m) (name : String)
    (optional : Bool) : Exported (m.register name optional) := by
  have hkeeps : ∀ check, check < m.objects.length →
      (m.register name optional).optional check = m.optional check := by
    intro check hlt
    simp only [State.optional, State.register, List.getElem?_append_left hlt]
  constructor
  · intro other r hr
    by_cases hname : other = name
    · subst hname
      simp [State.register] at hr
    · have hold : m.results other = some r := by
        simpa [State.register, Function.update_of_ne hname] using hr
      obtain ⟨check, hmem⟩ := hm.registered other r hold
      refine ⟨check, mem_cons_of_mem _ (mem_filter.mpr ⟨hmem, ?_⟩)⟩
      simpa using hname
  · intro other critical v hv
    by_cases hname : other = name
    · subst hname
      simp [State.register] at hv
    · have hold : m.up other critical = some v := by
        simpa [State.register, Function.update_of_ne hname] using hv
      obtain ⟨r, hr, hcritical, herr⟩ := hm.series other critical v hold
      refine ⟨r, by simpa [State.register, Function.update_of_ne hname] using hr, ?_, herr⟩
      obtain ⟨check, hmem⟩ := hm.registered other r hr
      obtain rfl := (hs.stored other r hr).2 check hmem
      rw [hkeeps r.check (hkeyed.known other r.check hmem), hcritical]

/-- A result is stored with the criticality of its own check, which every series of the name
has. -/
theorem Exported.store {item : Item} (hm : Exported m) (hs : Sourced m) (hitem : item.Fits m) :
    Exported (m.store item) := by
  unfold State.store
  split
  · exact hm
  · rename_i r hr
    split
    · rename_i hany
      obtain ⟨⟨name, check⟩, hmem, hname⟩ := List.any_eq_true.mp hany
      obtain rfl : name = item.name := by simpa using hname
      obtain ⟨k, e, hk, he, hresult⟩ := out_eq_some hr
      obtain ⟨⟨e', he', hcheck⟩, hkeep⟩ := hitem k hk
      obtain rfl : e = e' := some.inj (he.symm.trans he')
      have hsource : r.check = item.check := (hs.evaluated k e r he hresult).trans hcheck
      constructor
      · intro other r' hr'
        by_cases hother : other = item.name
        · exact ⟨check, hother ▸ hmem⟩
        · exact hm.registered other r' (by simpa [Function.update_of_ne hother] using hr')
      · intro other critical v hv
        by_cases hother : other = item.name
        · subst hother
          refine ⟨r, by simp, ?_⟩
          simp only [Function.update_self] at hv
          by_cases hcritical : critical = !m.optional item.check
          · rw [hcritical, Function.update_self] at hv
            exact ⟨by rw [hcritical, hsource]; rfl, (some.inj hv).symm⟩
          · rw [Function.update_of_ne hcritical] at hv
            obtain ⟨old, hold, hlabel, -⟩ := hm.series item.name critical v hv
            have hsame : old.check = item.check :=
              ((hs.stored item.name old hold).2 check hmem).symm.trans (hkeep check hmem)
            exact absurd (by rw [hlabel, hsame]) hcritical
        · obtain ⟨r', hr', hrest⟩ := hm.series other critical v
            (by simpa [Function.update_of_ne hother] using hv)
          exact ⟨r', by simpa [Function.update_of_ne hother] using hr', hrest⟩
    · exact hm

theorem Exported.foldl_store {out : List Item} (hm : Exported m) (hs : Sourced m)
    (hout : ∀ item ∈ out, item.Fits m) : Exported (out.foldl State.store m) := by
  induction out generalizing m with
  | nil => exact hm
  | cons item out ih =>
    have hfirst := hout item mem_cons_self
    refine ih (hm.store hs hfirst) (hs.store hfirst) fun x hx k hk => ?_
    rw [store_evaluations, store_checks]
    exact hout x (mem_cons_of_mem _ hx) k hk

theorem Exported.step (hm : Exported m) (hs : Sourced m) (hl : Started m l)
    (hcurrent : l.Current m) (hkeyed : Keyed m) (hstep : Refreshes m l l' m') : Exported m' := by
  cases hstep with
  | idle _ _ mu hsame =>
    rw [hsame]
    exact hm.same rfl rfl rfl fun _ => rfl
  | copy _ _ hsame => rwa [hsame]
  | skip _ _ _ _ hsame => rwa [hsame]
  | start inline name check _ _ _ hm' =>
    rw [hm']
    refine hm.same ?_ ?_ ?_ fun other => optional_setRunning m check other true
    all_goals rw [setRunning_frame]
  | store inline _ _ _ hm' =>
    rw [hm']
    refine hm.foldl_store hs fun item hitem k hk => ⟨hl item hitem k hk, fun check hmem => ?_⟩
    have hheld := hcurrent.2 item hitem (by simp [hk])
    exact hkeyed.unique item.name check item.check hmem hheld

theorem exported_of_reachable (hc : h.handlers.ReachableIf (fun c a => registersIdle c a) {} c) :
    Exported c.shared := by
  refine hc.induct (I := fun c => Exported c.shared) ⟨by simp, by simp⟩ (fun c l _ hm _ => hm)
    ?_ ?_
  · intro c i x l l' m hc hm _ hi hstep
    obtain ⟨hkeyed, hcurrent⟩ := current_of_reachable hc
    obtain ⟨hs, hstarted⟩ := sourced_of_reachable (keepsCheck_of_registersIdle hc)
    exact hm.step hs (hstarted i l hi) (hcurrent i l hi) hkeyed (refreshes_of_step hstep)
  · intro c e m hc hm _ henv
    cases moves_of_env henv with
    | register name optional hm' =>
      rw [hm']
      exact hm.register (current_of_reachable hc).1
        (sourced_of_reachable (keepsCheck_of_registersIdle hc)).1 name optional
    | finish k ended e err _ _ hm' =>
      rw [hm']
      exact hm.same rfl rfl rfl fun _ => rfl
    | other e hchecks hresults hup _ hoptional => exact hm.same hchecks hresults hup hoptional

/-- In every run in which no check is registered while a refresh holds one under its name,
registering takes effect in every state. -/
theorem register_takes_effect
    (hc : h.handlers.ReachableIf (fun c a => registersIdle c a) {} c) :
    TakesEffect c.shared := by
  have hexported := exported_of_reachable hc
  obtain ⟨hs, -⟩ := sourced_of_reachable (keepsCheck_of_registersIdle hc)
  refine ⟨fun name r hr check => ?_, hexported.series⟩
  have hstored := (hs.stored name r hr).2
  constructor
  · exact hstored check
  · intro heq
    obtain ⟨registered, hmem⟩ := hexported.registered name r hr
    obtain rfl := hstored registered hmem
    rwa [heq]

/-- A critical check fails, and after the refresh it is registered as optional, which fails
too. -/
def replacedBetween : List (Act Local Choice Env) :=
  [.env (.register "cache" false),
    .spawn (.copy false), .step 0 (.order [("cache", 0)]), .step 0 .go, .step 0 .go,
    .env (.returns 0 (some "down")), .env (.clears 0), .env (.selects 0 false),
    .step 0 .go, .step 0 .go, .env (.register "cache" true),
    .spawn (.copy false), .step 1 (.order [("cache", 1)]), .step 1 .go, .step 1 .go,
    .env (.returns 1 (some "down")), .env (.clears 1), .env (.selects 1 false),
    .step 1 .go, .step 1 .go]

theorem register_takes_effect_replacedBetween :
    ∃ c, everyTen.handlers.runIf registersIdle ⟨{}, []⟩ replacedBetween = some c ∧
      TakesEffect c.shared ∧ c.shared.checks = [("cache", 1)] ∧
      c.shared.up "cache" false = some false ∧ c.shared.up "cache" true = none := by
  obtain ⟨c, hrun, hrest⟩ : ∃ c,
      everyTen.handlers.runIf registersIdle ⟨{}, []⟩ replacedBetween = some c ∧
        c.shared.checks = [("cache", 1)] ∧ c.shared.up "cache" false = some false ∧
        c.shared.up "cache" true = none := ⟨_, rfl, rfl, rfl, rfl⟩
  have hc := ReachableIf.runIf (T := everyTen.handlers) .init hrun
  exact ⟨c, hrun, register_takes_effect hc, hrest⟩

def replacedDuring : List (Act Local Choice Env) :=
  [.env (.register "cache" false),
    .spawn (.copy false), .step 0 (.order [("cache", 0)]), .step 0 .go, .step 0 .go,
    .env (.register "cache" true),
    .env (.returns 0 (some "down")), .env (.clears 0), .env (.selects 0 false),
    .step 0 .go, .step 0 .go]

/-- The result of the replaced check is stored, and its series is back as critical. -/
theorem replacedDuring_stores_old :
    ∃ c r, everyTen.handlers.run ⟨{}, []⟩ replacedDuring = some c ∧
      c.shared.checks = [("cache", 1)] ∧ c.shared.optional 1 = true ∧
      c.shared.results "cache" = some r ∧ r.check = 0 ∧
      c.shared.up "cache" true = some false ∧ ¬TakesEffect c.shared := by
  refine ⟨_, _, rfl, rfl, rfl, rfl, rfl, rfl, fun heffect => ?_⟩
  cases (heffect.results "cache" _ rfl 1).mp mem_cons_self

end GolangBasics.Httpx
