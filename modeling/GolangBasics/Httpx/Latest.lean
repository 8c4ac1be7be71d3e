import GolangBasics.Httpx.Readiness

/-! In which order results are stored. A refresh stores what it has evaluated only when all its
evaluations have finished, and another refresh may have evaluated the same check since. -/
namespace GolangBasics.Httpx
open Conc Threads List Option

def Local.evaluates (name : String) (l : Local) : Nat := l.items.countP (Item.evaluates name)

/-- A check is evaluated only when no refresh is still to store an evaluation under its name. -/
def startsAlone (c : Pool State Local) : Act Local Choice Env → Bool
  | .step i .go =>
    match c.threads[i]? with
    | some (.start _ ((name, check) :: _) _) =>
      c.shared.running check || c.threads.all fun l => l.evaluates name = 0
    | _ => true
  | _ => true

/-- What refreshes are still to store under a name has finished after the result, or will. -/
def Pending (name : String) (r : Result) (c : Pool State Local) : Prop :=
  ∀ l ∈ c.threads, ∀ item ∈ l.items, item.name = name →
    ∀ r', c.shared.out item = some r' → r.seq < r'.seq

/-- The evaluation of a check is under way or still to be stored only once, and everything
stored is from the past. -/
structure Latest (c : Pool State Local) : Prop where
  finished : ∀ k r, c.shared.resultOf k = some r → r.seq < c.shared.finished
  stored : ∀ name r, c.shared.results name = some r → r.seq < c.shared.finished
  alone : ∀ name, c.total (Local.evaluates name) ≤ 1
  pending : ∀ name r, c.shared.results name = some r → Pending name r c

variable {h : Health} {m m' : State} {l l' : Local} {c c' : Pool State Local} {i : Nat}
  {name : String} {r : Result}

theorem out_congr (hsame : ∀ k, m'.resultOf k = m.resultOf k) (item : Item) :
    m'.out item = m.out item := by
  rw [out_eq_bind, out_eq_bind]
  cases item.evaluation with
  | none => rfl
  | some k => exact hsame k

theorem one_le_evaluates {item : Item} {r' : Result} (hitem : item ∈ l.items)
    (hname : item.name = name) (hout : m.out item = some r') : 1 ≤ l.evaluates name := by
  refine countP_pos_iff.mpr ⟨item, hitem, ?_⟩
  obtain ⟨k, -, hk, -⟩ := out_eq_some hout
  simp [Item.evaluates, hname, hk]

theorem Refreshes.resultOf (hstep : Refreshes m l l' m') (k : Nat) :
    m'.resultOf k = m.resultOf k := by
  cases hstep with
  | idle _ _ mu hsame => rw [hsame]; rfl
  | copy _ _ hsame => rw [hsame]
  | skip _ _ _ _ hsame => rw [hsame]
  | start inline name check _ _ _ hm' =>
    rw [hm']
    exact resultOf_append m ⟨check, none, false, none⟩ rfl k
  | store inline _ _ _ hm' =>
    obtain ⟨results, up, hframe⟩ := foldl_store_frame l.items m
    rw [hm', hframe]
    rfl

theorem Refreshes.items (hstep : Refreshes m l l' m') {item : Item} (hitem : item ∈ l'.items) :
    item ∈ l.items ∨ m.out item = none := by
  cases hstep with
  | idle _ hitems => exact .inl (hitems.subset hitem)
  | copy _ hitems => simp [hitems] at hitem
  | skip name check _ hitems =>
    rw [hitems] at hitem
    rcases mem_append.mp hitem with hitem | hitem
    · exact .inl hitem
    · obtain rfl := mem_singleton.mp hitem
      exact .inr rfl
  | start inline name check _ _ hitems =>
    rw [hitems] at hitem
    rcases mem_append.mp hitem with hitem | hitem
    · exact .inl hitem
    · obtain rfl := mem_singleton.mp hitem
      exact .inr (by simp [State.out])
  | store inline _ _ hitems => simp [hitems] at hitem

theorem Refreshes.results (hstep : Refreshes m l l' m') (name : String) :
    m'.results name = m.results name ∨ l'.items = [] ∧ ∃ item ∈ l.items, item.name = name ∧
      ∃ r, m.out item = some r ∧ m'.results name = some r := by
  cases hstep with
  | idle _ _ mu hsame => exact .inl (by rw [hsame])
  | copy _ _ hsame => exact .inl (by rw [hsame])
  | skip _ _ _ _ hsame => exact .inl (by rw [hsame])
  | start inline name check _ _ _ hm' => exact .inl (by rw [hm', setRunning_frame])
  | store inline _ _ hitems hm' =>
    rw [hm']
    exact (foldl_store_results l.items m name).imp_right fun hitem => ⟨hitems, hitem⟩

theorem Pending.step (hc : Pending name r c) (hi : c.threads[i]? = some l)
    (hstep : Refreshes c.shared l l' m') : Pending name r ⟨m', c.threads.set i l'⟩ := by
  intro k hk item hitem hname r' hr'
  rw [out_congr hstep.resultOf] at hr'
  rcases mem_or_eq_of_mem_set hk with hk | rfl
  · exact hc k hk item hitem hname r' hr'
  · rcases hstep.items hitem with hitem | hnone
    · exact hc l (mem_of_getElem? hi) item hitem hname r' hr'
    · rw [hnone] at hr'
      cases hr'

/-- An evaluation that finishes does so after all that have finished. -/
theorem Pending.env {e : Env} (hc : Pending name r c) (hr : r.seq < c.shared.finished)
    (hmoves : Moves c.shared m' e) : Pending name r ⟨m', c.threads⟩ := by
  intro l hl item hitem hname r' hr'
  have hbefore := hc l hl item hitem hname r'
  cases hmoves with
  | register other optional hm' =>
    refine hbefore ?_
    rw [← hr', hm']
    rfl
  | finish k ended e err he _ hm' =>
    rw [out_eq_bind] at hr' hbefore
    obtain ⟨j, hj, hr'⟩ := bind_eq_some_iff.mp hr'
    simp only [hm', resultOf_finish he] at hr'
    split at hr'
    · obtain rfl := some.inj hr'
      exact hr
    · exact hbefore (by rw [hj]; exact hr')
  | other e _ _ _ _ _ hresult =>
    refine hbefore ?_
    rw [← hr', out_congr hresult]

theorem Pending.spawn (hc : Pending name r c) (hl : l.items = []) :
    Pending name r ⟨c.shared, c.threads ++ [l]⟩ := by
  intro k hk item hitem
  rcases mem_append.mp hk with hk | hk
  · exact hc k hk item hitem
  · obtain rfl := mem_singleton.mp hk
    simp [hl] at hitem

theorem alone_step (hc : ∀ name, c.total (Local.evaluates name) ≤ 1)
    (hi : c.threads[i]? = some l) (hok : startsAlone c (.step i .go))
    (hstep : Refreshes c.shared l l' m') (name : String) :
    (Pool.mk m' (c.threads.set i l')).total (Local.evaluates name) ≤ 1 := by
  have hset := Pool.total_set (s := m') (k := l') (f := Local.evaluates name) hi
  have hbefore := hc name
  have hfewer : l'.evaluates name ≤ l.evaluates name →
      (Pool.mk m' (c.threads.set i l')).total (Local.evaluates name) ≤ 1 := by
    intro hle
    omega
  cases hstep with
  | idle _ hitems => exact hfewer hitems.countP_le
  | copy _ hitems => exact hfewer (by simp [Local.evaluates, hitems])
  | skip other check _ hitems =>
    refine hfewer ?_
    simp [Local.evaluates, hitems, Item.evaluates]
  | start inline other check hl hrunning hitems =>
    by_cases hname : other = name
    · subst hname
      rw [hl] at hi
      simp only [startsAlone, hi, hrunning, Bool.false_or, List.all_eq_true,
        decide_eq_true_eq] at hok
      have hnone : c.total (Local.evaluates other) = 0 :=
        Pool.total_eq_zero fun j k hk => hok k (mem_of_getElem? hk)
      have hone : l'.evaluates other = l.evaluates other + 1 := by
        simp [Local.evaluates, hitems, Item.evaluates]
      omega
    · refine hfewer ?_
      simp [Local.evaluates, hitems, Item.evaluates, hname]
  | store inline _ _ hitems => exact hfewer (by simp [Local.evaluates, hitems])

theorem Latest.step (hc : Latest c) (hi : c.threads[i]? = some l)
    (hok : startsAlone c (.step i .go)) (hstep : Refreshes c.shared l l' m') :
    Latest ⟨m', c.threads.set i l'⟩ := by
  refine ⟨fun k r hr => ?_, fun name r hr => ?_, alone_step hc.alone hi hok hstep, ?_⟩
  · rw [hstep.frame.2.1]
    exact hc.finished k r (by rw [← hr, hstep.resultOf])
  · rw [hstep.frame.2.1]
    rcases hstep.results name with hsame | ⟨-, item, -, -, r', hout, hstored⟩
    · exact hc.stored name r (by rw [← hsame]; exact hr)
    · obtain rfl : r' = r := some.inj (hstored.symm.trans hr)
      rw [out_eq_bind] at hout
      obtain ⟨k, -, hk⟩ := bind_eq_some_iff.mp hout
      exact hc.finished k r' hk
  · intro name r hr
    rcases hstep.results name with hsame | ⟨hnone, item, hitem, hname, r', hout, hstored⟩
    · exact (hc.pending name r (by rw [← hsame]; exact hr)).step hi hstep
    · -- the refresh held the only evaluation under the name
      intro k hk x hx hxname rx hrx
      rw [out_congr hstep.resultOf] at hrx
      obtain ⟨j, hj⟩ := List.getElem?_of_mem hk
      rcases Pool.set_cases hj with ⟨-, rfl⟩ | ⟨hji, hj⟩
      · simp [hnone] at hx
      · have hmine := one_le_evaluates hitem hname hout
        have hother := one_le_evaluates hx hxname hrx
        have hboth := Pool.add_le_total (f := Local.evaluates name) hi hj hji
        have honce := hc.alone name
        omega

theorem Latest.env {e : Env} (hc : Latest c) (hmoves : Moves c.shared m' e) :
    Latest ⟨m', c.threads⟩ := by
  cases hmoves with
  | register other optional hm' =>
    have hmoves : Moves c.shared m' (.register other optional) := .register other optional hm'
    have hold : ∀ name r, m'.results name = some r → c.shared.results name = some r := by
      intro name r hr
      rw [hm'] at hr
      by_cases hname : name = other
      · subst hname
        simp [State.register] at hr
      · simpa [State.register, Function.update_of_ne hname] using hr
    refine ⟨by rw [hm']; exact hc.finished, fun name r hr => ?_, hc.alone, fun name r hr => ?_⟩
    · rw [hm']
      exact hc.stored name r (hold name r hr)
    · exact (hc.pending name r (hold name r hr)).env (hc.stored name r (hold name r hr)) hmoves
  | finish k ended e err he hnone hm' =>
    have hmoves : Moves c.shared m' (.selects k ended) := .finish k ended e err he hnone hm'
    have hfinished : m'.finished = c.shared.finished + 1 := by rw [hm']; rfl
    have hresults : m'.results = c.shared.results := by rw [hm']; rfl
    refine ⟨fun j r hr => ?_, fun name r hr => ?_, hc.alone, fun name r hr => ?_⟩
    · rw [hm', resultOf_finish he] at hr
      rw [hfinished]
      split at hr
      · obtain rfl := some.inj hr
        exact Nat.lt_succ_self _
      · exact Nat.lt_succ_of_lt (hc.finished j r hr)
    · rw [hresults] at hr
      rw [hfinished]
      exact Nat.lt_succ_of_lt (hc.stored name r hr)
    · rw [hresults] at hr
      exact (hc.pending name r hr).env (hc.stored name r hr) hmoves
  | other e hchecks hresults hup hobjects hoptional hresult hfinished =>
    have hmoves : Moves c.shared m' e :=
      .other e hchecks hresults hup hobjects hoptional hresult hfinished
    refine ⟨fun k r hr => ?_, fun name r hr => ?_, hc.alone, fun name r hr => ?_⟩
    · rw [hfinished]
      exact hc.finished k r (by rw [← hr, hresult])
    · rw [hfinished]
      exact hc.stored name r (by rw [← hresults]; exact hr)
    · rw [hresults] at hr
      exact (hc.pending name r hr).env (hc.stored name r hr) hmoves

/-- A step that is not taken is only possible where the checks are copied. -/
theorem startsAlone_of_order {checks : List (String × Nat)} (hi : c.threads[i]? = some l)
    (hstep : h.step l (.order checks) m = some (l', m')) : startsAlone c (.step i .go) := by
  cases l with
  | copy inline => simp [startsAlone, hi]
  | start inline todo out => cases todo <;> cases hstep
  | _ => cases hstep

theorem latest_of_reachable (hc : h.handlers.ReachableIf (fun c a => startsAlone c a) {} c) :
    Latest c := by
  refine hc.invariant ⟨by simp [State.resultOf], by simp, by simp [Pool.total], by simp⟩ ?_ ?_ ?_
  · intro c l hlatest hl
    have hitems := items_of_starts hl
    refine ⟨hlatest.finished, hlatest.stored, fun name => ?_, fun name r hr => ?_⟩
    · have hspawn := Pool.total_spawn (s := c.shared) (c := c) (l := l)
        (f := Local.evaluates name)
      have hnone : l.evaluates name = 0 := by simp [Local.evaluates, hitems]
      have hbefore := hlatest.alone name
      omega
    · exact (hlatest.pending name r hr).spawn hitems
  · intro c i x l l' m hlatest hok hi hstep
    have halone : startsAlone c (.step i .go) := by
      cases x with
      | go => exact hok
      | order checks => exact startsAlone_of_order hi hstep
    exact hlatest.step hi halone (refreshes_of_step hstep)
  · intro c e m hlatest _ henv
    exact hlatest.env (moves_of_env henv)

/-- Nothing older than the result is stored under the name or about to be. -/
structure Since (name : String) (r : Result) (c : Pool State Local) : Prop where
  pending : Pending name r c
  finished : r.seq < c.shared.finished
  stored : ∀ r', c.shared.results name = some r' → r' = r ∨ r.seq < r'.seq

theorem Latest.since (hc : Latest c) (hr : c.shared.results name = some r) : Since name r c :=
  ⟨hc.pending name r hr, hc.stored name r hr,
    fun _ hr' => .inl (some.inj (hr'.symm.trans hr))⟩

theorem Since.step (hc : Since name r c) (hi : c.threads[i]? = some l)
    (hstep : Refreshes c.shared l l' m') : Since name r ⟨m', c.threads.set i l'⟩ := by
  refine ⟨hc.pending.step hi hstep, by rw [hstep.frame.2.1]; exact hc.finished, fun r' hr' => ?_⟩
  rcases hstep.results name with hsame | ⟨-, item, hitem, hname, new, hout, hstored⟩
  · exact hc.stored r' (by rw [← hsame]; exact hr')
  · obtain rfl : new = r' := some.inj (hstored.symm.trans hr')
    exact .inr (hc.pending l (mem_of_getElem? hi) item hitem hname new hout)

theorem Since.env {e : Env} (hc : Since name r c) (hmoves : Moves c.shared m' e) :
    Since name r ⟨m', c.threads⟩ := by
  refine ⟨hc.pending.env hc.finished hmoves, ?_, fun r' hr' => hc.stored r' ?_⟩
  · have hbefore := hc.finished
    cases hmoves with
    | register other optional hm' =>
      rw [hm']
      exact hbefore
    | finish k ended e err _ _ hm' =>
      rw [hm']
      exact Nat.lt_succ_of_lt hbefore
    | other e _ _ _ _ _ _ hfinished =>
      rw [hfinished]
      exact hbefore
  · cases hmoves with
    | register other optional hm' =>
      rw [hm'] at hr'
      by_cases hname : name = other
      · subst hname
        simp [State.register] at hr'
      · simpa [State.register, Function.update_of_ne hname] using hr'
    | finish k ended e err _ _ hm' =>
      rw [hm'] at hr'
      exact hr'
    | other e _ hresults =>
      rw [hresults] at hr'
      exact hr'

theorem Since.next {a : Act Local Choice Env} (hc : Since name r c)
    (hnext : h.handlers.next c a = some c') : Since name r c' := by
  rcases next_cases hnext with ⟨l, rfl, hl, rfl⟩ | ⟨i, x, l, l', m, rfl, hi, hstep, rfl⟩ |
    ⟨e, m, rfl, henv, rfl⟩
  · exact ⟨hc.pending.spawn (items_of_starts hl), hc.finished, hc.stored⟩
  · exact hc.step hi (refreshes_of_step hstep)
  · exact hc.env (moves_of_env henv)

/-- Only `Register` takes a result away. -/
theorem stored_next {a : Act Local Choice Env} (hnext : h.handlers.next c a = some c')
    (ha : ∀ optional, a ≠ .env (.register name optional))
    (hr : (c.shared.results name).isSome) : (c'.shared.results name).isSome := by
  rcases next_cases hnext with ⟨l, rfl, -, rfl⟩ | ⟨i, x, l, l', m, rfl, -, hstep, rfl⟩ |
    ⟨e, m, rfl, henv, rfl⟩
  · exact hr
  · rcases (refreshes_of_step hstep).results name with hsame | ⟨-, -, -, -, new, -, hstored⟩
    · simpa only [hsame] using hr
    · simp [hstored]
  · cases moves_of_env henv with
    | register other optional hm' =>
      have hname : name ≠ other := fun heq => ha optional (by rw [heq])
      rw [hm']
      simpa [State.register, Function.update_of_ne hname] using hr
    | finish k ended e err _ _ hm' =>
      rw [hm']
      exact hr
    | other e _ hresults =>
      rw [hresults]
      exact hr

theorem Since.run {as : List (Act Local Choice Env)} (hc : Since name r c)
    (hrun : h.handlers.run c as = some c') :
    Since name r c' ∧ ((∀ optional, .env (.register name optional) ∉ as) →
      (c.shared.results name).isSome → (c'.shared.results name).isSome) := by
  induction as generalizing c with
  | nil =>
    cases hrun
    exact ⟨hc, fun _ => id⟩
  | cons a as ih =>
    obtain ⟨c₁, h₁, h₂⟩ := bind_eq_some_iff.mp hrun
    obtain ⟨hsince, hstored⟩ := ih (hc.next h₁) h₂
    refine ⟨hsince, fun hnot hr => hstored (fun o hmem => hnot o (mem_cons_of_mem _ hmem)) ?_⟩
    refine stored_next h₁ (fun o heq => hnot o ?_) hr
    rw [heq]
    exact mem_cons_self

/-- In every run in which a check is evaluated only when no refresh is still to store an
evaluation under its name, a stored result is only replaced by one that has finished later. A
failure stays stored until then, unless the check is registered anew. -/
theorem results_never_go_back {as : List (Act Local Choice Env)}
    (hc : h.handlers.ReachableIf (fun c a => startsAlone c a) {} c)
    (hr : c.shared.results name = some r) (hrun : h.handlers.run c as = some c') :
    (∀ r', c'.shared.results name = some r' → r' = r ∨ r.seq < r'.seq) ∧
    ((∀ optional, .env (.register name optional) ∉ as) →
      ∃ r', c'.shared.results name = some r' ∧
        (r.err ≠ none → r'.err = none → r.seq < r'.seq)) := by
  obtain ⟨hsince, hstored⟩ := ((latest_of_reachable hc).since hr).run hrun
  refine ⟨hsince.stored, fun hnot => ?_⟩
  obtain ⟨r', hr'⟩ := isSome_iff_exists.mp (hstored hnot (by simp [hr]))
  refine ⟨r', hr', fun hfailed hpassed => ?_⟩
  rcases hsince.stored r' hr' with rfl | hlater
  · exact absurd hpassed hfailed
  · exact hlater

def failedOnce : List (Act Local Choice Env) :=
  [.env (.register "db" false), .env (.setReady true),
    .spawn (.copy false), .step 0 (.order [("db", 0)]), .step 0 .go, .step 0 .go,
    .env (.returns 0 (some "down")), .env (.clears 0), .env (.selects 0 false),
    .step 0 .go, .step 0 .go]

def thenPassed : List (Act Local Choice Env) :=
  [.spawn (.copy false), .step 1 (.order [("db", 0)]), .step 1 .go, .step 1 .go,
    .env (.returns 1 none), .env (.clears 1), .env (.selects 1 false), .step 1 .go, .step 1 .go]

theorem results_never_go_back_thenPassed :
    ∃ c c' r r', everyTen.handlers.runIf startsAlone ⟨{}, []⟩ failedOnce = some c ∧
      c.shared.results "db" = some r ∧ r.err = some "down" ∧
      everyTen.handlers.run c thenPassed = some c' ∧
      c'.shared.results "db" = some r' ∧ r'.err = none ∧ r.seq < r'.seq := by
  obtain ⟨c, c', hrun, hr, hrun', hr'⟩ :
      ∃ c c', everyTen.handlers.runIf startsAlone ⟨{}, []⟩ failedOnce = some c ∧
        c.shared.results "db" = some ⟨some "down", 0, 0, 0⟩ ∧
        everyTen.handlers.run c thenPassed = some c' ∧
        c'.shared.results "db" = some ⟨none, 0, 0, 1⟩ := ⟨_, _, rfl, rfl, rfl, rfl⟩
  have hc := ReachableIf.runIf (T := everyTen.handlers) .init hrun
  obtain ⟨hlater, -⟩ := results_never_go_back hc hr hrun'
  refine ⟨c, c', _, _, hrun, hr, rfl, hrun', hr', rfl, ?_⟩
  exact (hlater _ hr').resolve_left (by simp)

/-- A background refresh evaluates two checks: "db" passes at once, and "broker" is slow. A
probe finds no results and refreshes inline: "db" fails now, which is stored. Then "broker"
returns and the background refresh stores its two results. -/
def slowNeighbour : List (Act Local Choice Env) :=
  [.env (.register "db" false), .env (.register "broker" false), .env (.setReady true),
    .spawn (.copy false), .step 0 (.order [("db", 0), ("broker", 1)]), .step 0 .go, .step 0 .go,
    .step 0 .go, .env (.returns 0 none), .env (.clears 0), .env (.selects 0 false),
    .spawn .probe, .step 1 .go, .step 1 .go, .step 1 .go, .step 1 .go,
    .step 1 (.order [("db", 0), ("broker", 1)]), .step 1 .go, .step 1 .go, .step 1 .go,
    .env (.returns 2 (some "down")), .env (.clears 2), .env (.selects 2 false),
    .step 1 .go, .step 1 .go, .step 1 .go]

/-- The stored failure is replaced by the success of the evaluation that finished before it. -/
theorem slowNeighbour_goes_back :
    ∃ c c' r r', everyTen.handlers.run ⟨{}, []⟩ slowNeighbour = some c ∧
      c.shared.results "db" = some r ∧ r.err = some "down" ∧
      everyTen.handlers.run c [.env (.returns 1 none), .env (.clears 1), .env (.selects 1 false),
        .step 0 .go, .step 0 .go] = some c' ∧
      c'.shared.results "db" = some r' ∧ r'.err = none ∧ r'.check = r.check ∧ r'.seq < r.seq := by
  exact ⟨_, _, _, _, rfl, rfl, rfl, rfl, rfl, rfl, rfl, by decide⟩

end GolangBasics.Httpx
