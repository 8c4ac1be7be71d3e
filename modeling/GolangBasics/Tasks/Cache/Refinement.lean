import GolangBasics.Tasks.Cache.Calls
import GolangBasics.Tasks.Store.History

/-! The repository as the cache sees it, one step for each method, against the repository as
it runs, statement by statement. Both take a task through the same steps of life. -/
namespace GolangBasics.Tasks.Cache
open Conc Relation
open Store (Life Lives bump expected updatedRow_eq_bump)

variable {cfg : Config} {s s' : State} {p : Nat}

/-- A method takes the task one step on or leaves it. -/
theorem execute_life (cfg : Config) (p : Nat) (s : State) (r : StoreReq) :
    (execute cfg p s r).2.life = s.life ∨ Life.Step s.life (execute cfg p s r).2.life := by
  cases r with
  | create title =>
    cases hlife : s.life with
    | unborn =>
      simp only [execute, hlife]
      exact .inr (.created rfl)
    | _ => exact .inl (by simp only [execute, hlife])
  | get => exact .inl (by cases hlife : s.life <;> simp only [execute, hlife])
  | update patch expect =>
    cases hlife : s.life with
    | live t =>
      by_cases hexp : expected expect t = true
      · simp only [execute, hlife, hexp, if_true, updatedRow_eq_bump]
        exact .inr .updated
      · exact .inl (by simp only [execute, hlife, hexp]; exact hlife)
    | _ => exact .inl (by simp only [execute, hlife])
  | delete expect =>
    cases hlife : s.life with
    | live t =>
      by_cases hexp : expected expect t = true
      · simp only [execute, hlife, hexp, if_true]
        exact .inr .deleted
      · exact .inl (by simp only [execute, hlife, hexp]; exact hlife)
    | _ => exact .inl (by simp only [execute, hlife])

/-- The life of a task in the repository takes the same steps. -/
theorem store_life_of_run {c : Conc.Config Nat Store.Req Store.Rep Store.State Store.Call Store.Result}
    (hc : Store.calls.Reachable Store.State.init c) (id : String) :
    ∃ l, ReflTransGen Life.Step .unborn l ∧
      Lives (Store.entriesOf id c.shared.db.tables.history) l ∧
      Store.rowOf id c.shared.db.tables.tasks = l.row := by
  induction hc with
  | init => exact ⟨.unborn, .refl, .unborn, rfl⟩
  | @step c c' e hc hstep ih =>
    obtain ⟨l₀, hsteps, hl₀, -⟩ := ih
    have hinv := (Store.holds_of_run hc).1
    have hinv' := (Store.holds_of_run (hc.step e hstep)).1
    obtain ⟨l, l', hl, -, hl', hrow', hnext⟩ :=
      Store.life_of_steps hinv hinv' ((Store.holds_of_run hc).steps hstep) id
    obtain rfl := hl.unique hl₀
    refine ⟨l', ?_, hl', hrow'⟩
    rcases hnext with rfl | hnext
    · exact hsteps
    · exact hsteps.tail hnext

/-- A task is created, updated and deleted. -/
theorem store_life_of_run_oneLife :
    ∃ c l, Store.calls.run ⟨Store.State.init, fun _ => none⟩ Store.oneLife = some c ∧
      (Store.entriesOf "t1" c.shared.db.tables.history).length = 3 ∧
      ReflTransGen Life.Step .unborn l ∧
      Lives (Store.entriesOf "t1" c.shared.db.tables.history) l ∧
      Store.rowOf "t1" c.shared.db.tables.tasks = l.row := by
  obtain ⟨c, hrun, hthree⟩ :
      ∃ c, Store.calls.run ⟨Store.State.init, fun _ => none⟩ Store.oneLife = some c ∧
        (Store.entriesOf "t1" c.shared.db.tables.history).length = 3 := ⟨_, rfl, rfl⟩
  obtain ⟨l, hl⟩ := store_life_of_run (Machine.Reachable.init.run hrun) "t1"
  exact ⟨c, l, hrun, hthree, hl⟩

end GolangBasics.Tasks.Cache
