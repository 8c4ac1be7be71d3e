import GolangBasics.Pgx.Runners

/-! `Migrate` keeps the recorded versions a gapless start of the version order, in every run of
any number of processes. -/
namespace GolangBasics.Pgx
open Conc Protocol List

variable {ms : List Migration}

theorem recorded_eq {t : Tables} (ht : Consistent ms t) :
    t.recorded = t.effects.map Migration.version := by
  rw [Tables.recorded, ht.rows, map_map]
  rfl

/-- A migration is on record exactly when it is among those that have taken effect. -/
theorem mem_recorded_iff (hsorted : ms.Pairwise fun a b => a.version < b.version) {t : Tables}
    (ht : Consistent ms t) {i : Nat} {m : Migration} (hm : ms[i]? = some m) :
    m.version ∈ t.recorded ↔ i < t.effects.length := by
  obtain ⟨rest, hrest⟩ := ht.effects
  have hget : ∀ j, (hj : j < t.effects.length) → ms[j]? = some t.effects[j] := by
    intro j hj
    rw [← hrest, List.getElem?_append_left hj, List.getElem?_eq_getElem hj]
  rw [recorded_eq ht]
  constructor
  · intro hmem
    obtain ⟨a, ha, hversion⟩ := mem_map.mp hmem
    obtain ⟨j, hj, rfl⟩ := mem_iff_getElem.mp ha
    have hij : i = j := by
      by_contra hne
      obtain ⟨hi', hmi⟩ := List.getElem?_eq_some_iff.mp hm
      obtain ⟨hj', hmj⟩ := List.getElem?_eq_some_iff.mp (hget j hj)
      have hrise := pairwise_iff_getElem.mp hsorted
      obtain hlt | hlt := Nat.lt_or_gt_of_ne hne
      · have := hrise i j hi' hj' hlt
        rw [hmi, hmj] at this
        omega
      · have := hrise j i hj' hi' hlt
        rw [hmi, hmj] at this
        omega
    exact hij ▸ hj
  · intro hi
    have : t.effects[i] = m := Option.some.inj ((hget i hi).symm.trans hm)
    exact mem_map.mpr ⟨m, this ▸ getElem_mem hi, rfl⟩

section statements
variable {q : Nat} {s s' : State} {tx : Tx} {x : Choice}

theorem answer_of_serve {r : Req} {rep : Rep r} (h : serve q r x s = some (rep, s'))
    (hrep : ∀ err, rep ≠ failure r err) : answer q s r = some (rep, s') := by
  cases x with
  | ok => exact h
  | fail err aborts =>
    cases h
    exact absurd rfl (hrep err)
  | unknown err =>
    cases r with
    | commit tx =>
      simp only [serve] at h
      split at h
      · cases h
        exact absurd rfl (hrep err)
      · cases h
    | _ => cases h

theorem execute_of_serve {r : Req} {rep : Rep r} (htx : r.tx? = some tx) (hr : r ≠ .rollback tx)
    (h : serve q r x s = some (rep, s')) (hrep : ∀ err, rep ≠ failure r err) :
    ∃ t cs, s.db.session tx = some (.active t cs) ∧ execute tx s t cs r = some (rep, s') :=
  answer_cases htx hr (answer_of_serve h hrep)

theorem serve_beginTx (h : serve q .beginTx x s = some (.ok tx, s')) : tx.1 = q ∧ Clean tx s' := by
  have hanswer := answer_of_serve h (by simp [failure])
  cases hanswer
  refine ⟨rfl, ?_⟩
  intro t cs hactive
  have hstart : (s.db.start (q, s.begun q)).session (q, s.begun q) =
      some (.active s.db.clock []) := Database.put_session_self
  rw [hstart] at hactive
  cases hactive
  rfl

theorem serve_lock (h : serve q (.lock tx) x s = some (none, s')) (hclean : Clean tx s) :
    Holding tx (fun _ cs => cs = []) s' := by
  obtain ⟨t, cs, hactive, hexecute⟩ := execute_of_serve rfl (by simp) h (by simp [failure])
  simp only [execute] at hexecute
  split at hexecute
  · cases hexecute
    intro t' cs' hactive'
    exact ⟨by simp [Database.acquire_locks], hclean t' cs' hactive'⟩
  · cases hexecute

theorem view_eq {t : Nat} {cs : List Change} (hactive : s.db.session tx = some (.active t cs)) :
    s.db.view Change.apply tx = Database.applyAll Change.apply cs s.db.tables := by
  rw [Database.view, Database.changes_active hactive]

theorem holding_write {t : Nat} {cs : List Change} {c : Change} {P : Tables → List Change → Prop}
    (hlock : s.db.locks () = some tx) (hP : P s.db.tables (cs ++ [c])) :
    Holding tx P (s.write tx t cs c) := by
  intro t' cs' hactive
  have hsession : (s.write tx t cs c).db.session tx = some (.active t (cs ++ [c])) :=
    Database.put_session_self
  rw [hsession] at hactive
  cases hactive
  refine ⟨?_, hP⟩
  show (s.db.write tx t cs [] c).locks () = some tx
  rw [Database.write_locks]
  simpa using hlock

theorem serve_ensureTable (h : serve q (.ensureTable tx) x s = some (none, s'))
    (hholding : Holding tx (fun _ cs => cs = []) s) :
    Holding tx (fun t cs => cs = tableChanges t) s' := by
  obtain ⟨t, cs, hactive, hexecute⟩ := execute_of_serve rfl (by simp) h (by simp [failure])
  obtain ⟨hlock, rfl⟩ := hholding t cs hactive
  simp only [execute, view_eq hactive] at hexecute
  split at hexecute
  · rename_i hexists
    cases hexecute
    intro t' cs' hactive'
    obtain ⟨hlock', rfl⟩ := hholding t' cs' hactive'
    exact ⟨hlock', (if_pos hexists).symm⟩
  · rename_i hnone
    cases hexecute
    exact holding_write hlock (if_neg hnone).symm

/-- Under the lock the answer is about what is committed. -/
theorem serve_selectVersion {version : Int} {found : Bool}
    (h : serve q (.selectVersion tx version) x s = some (.ok found, s'))
    (hholding : Holding tx (fun t cs => cs = tableChanges t) s) :
    s' = s ∧ (found ↔ version ∈ s.db.tables.recorded) := by
  obtain ⟨t, cs, hactive, hexecute⟩ := execute_of_serve rfl (by simp) h (by simp [failure])
  obtain ⟨hlock, rfl⟩ := hholding t cs hactive
  simp only [execute, view_eq hactive, applyAll_tableChanges] at hexecute
  cases hexecute
  refine ⟨rfl, ?_⟩
  simp [Tables.recorded]

theorem serve_exec {m : Migration} (h : serve q (.exec tx m) x s = some (none, s'))
    (hholding : Holding tx (fun t cs => cs = tableChanges t ∧ Due ms t m) s) :
    Holding tx (fun t cs => cs = tableChanges t ++ [.runSQL m] ∧ Due ms t m) s' := by
  obtain ⟨t, cs, hactive, hexecute⟩ := execute_of_serve rfl (by simp) h (by simp [failure])
  obtain ⟨hlock, rfl, hdue⟩ := hholding t cs hactive
  cases hexecute
  exact holding_write hlock ⟨rfl, hdue⟩

theorem serve_insertVersion {m : Migration}
    (h : serve q (.insertVersion tx m.version m.name) x s = some (none, s'))
    (hholding : Holding tx (fun t cs => cs = tableChanges t ++ [.runSQL m] ∧ Due ms t m) s) :
    Holding tx (Complete ms) s' := by
  obtain ⟨t, cs, hactive, hexecute⟩ := execute_of_serve rfl (by simp) h (by simp [failure])
  obtain ⟨hlock, rfl, hdue⟩ := hholding t cs hactive
  simp only [execute] at hexecute
  split at hexecute
  · cases hexecute
  · split at hexecute
    · cases hexecute
    · cases hexecute
      exact holding_write hlock ⟨m, hdue, by simp⟩

theorem serve_commit {n : Nat} (h : serve q (.commit tx) x s = some (none, s'))
    (hholding : Holding tx (Complete ms) s) (hdone : Done n s) : Done (n + 1) s' := by
  obtain ⟨t, cs, hactive, hexecute⟩ := execute_of_serve rfl (by simp) h (by simp [failure])
  obtain ⟨-, hcs⟩ := hholding t cs hactive
  obtain ⟨m, -, heq⟩ := hcs.applyAll
  cases hexecute
  show n + 1 ≤ (Database.applyAll Change.apply cs s.db.tables).effects.length
  rw [heq, length_append]
  exact Nat.succ_le_succ hdone

end statements
section programs
variable {dir : Except Err (List DirEntry)} {q : Nat} {s : State} {tx : Tx} {m : Migration}
  {i : Nat}

def Reaches (n : Nat) (out : Bool × Option Err) (s : State) : Prop := out.2 = none → Done n s

theorem stable_reaches (n : Nat) (out : Bool × Option Err) :
    (protocol ms dir).Stable q (Reaches n out) :=
  fun _ _ hm h hout => stable_done n hm (h hout)

theorem follows_error (n : Nat) (ran : Bool) (err : Err) (s : State) :
    (protocol ms dir).Follows q (Reaches n) (.ret (ran, some err)) s :=
  follows_ret (stable_reaches n _) (by simp [Reaches])

theorem follows_done {n : Nat} (ran : Bool) (hdone : Done n s) :
    (protocol ms dir).Follows q (Reaches n) (.ret (ran, none)) s :=
  follows_ret (stable_reaches n _) fun _ => hdone

theorem done_serve {s' : State} {r : Req} {x : Choice} {rep : Rep r} {n : Nat} (hinv : Inv ms s)
    (h : serve q r x s = some (rep, s')) (hpre : pre ms q r s) (hdone : Done n s) : Done n s' :=
  hdone.trans ((serve_move hpre h).grows hinv).length_le

theorem follows_apply (htx : tx.1 = q) (hdone : Done i s)
    (hholding : Holding tx (fun t cs => cs = tableChanges t ∧ Due ms t m) s) :
    (protocol ms dir).Follows q (Reaches (i + 1)) (apply m tx) s := by
  unfold apply
  simp only [Prog.request_bind]
  refine follows_ask _ ((stable_done i).and (stable_holding htx _)) ⟨hdone, hholding⟩
    (fun _ _ h => ⟨htx, h.2⟩) ?_
  rintro _ rep s₁ s₂ hinv ⟨hdone, hholding⟩ hserve -
  cases rep with
  | some err => exact follows_error _ _ _ _
  | none =>
    have hran := serve_exec hserve hholding
    have hdone := done_serve hinv hserve ⟨htx, hholding⟩ hdone
    refine follows_ask _ ((stable_done i).and (stable_holding htx _)) ⟨hdone, hran⟩
      (fun _ _ h => ⟨htx, m, rfl, rfl, h.2⟩) ?_
    rintro _ rep s₃ s₄ hinv ⟨hdone, hholding⟩ hserve -
    cases rep with
    | some err => exact follows_error _ _ _ _
    | none =>
      have hcomplete := serve_insertVersion hserve hholding
      have hdone := done_serve hinv hserve ⟨htx, m, rfl, rfl, hholding⟩ hdone
      refine follows_ask _ ((stable_done i).and (stable_holding htx _)) ⟨hdone, hcomplete⟩
        (fun _ _ h => ⟨htx, h.2⟩) ?_
      rintro _ rep s₅ s₆ - ⟨hdone, hholding⟩ hserve -
      cases rep with
      | some err => exact follows_error _ _ _ _
      | none => exact follows_done _ (serve_commit hserve hholding hdone)

variable (hsorted : ms.Pairwise fun a b => a.version < b.version) (hm : ms[i]? = some m)
include hsorted hm

/-- Under the lock: either the version is on record, or its migration is the one that is due. -/
theorem follows_applyTx (htx : tx.1 = q) (hdone : Done i s) (hclean : Clean tx s) :
    (protocol ms dir).Follows q (Reaches (i + 1)) (applyTx m tx) s := by
  unfold applyTx
  simp only [Prog.request_bind]
  refine follows_ask _ ((stable_done i).and (stable_clean htx)) ⟨hdone, hclean⟩
    (fun _ _ _ => htx) ?_
  rintro _ rep s₁ s₂ hinv ⟨hdone, hclean⟩ hserve -
  cases rep with
  | some err => exact follows_error _ _ _ _
  | none =>
    have hlocked := serve_lock hserve hclean
    have hdone := done_serve hinv hserve htx hdone
    refine follows_ask _ ((stable_done i).and (stable_holding htx _)) ⟨hdone, hlocked⟩
      (fun _ _ h => ⟨htx, h.2⟩) ?_
    rintro _ rep s₃ s₄ hinv ⟨hdone, hholding⟩ hserve -
    cases rep with
    | some err => exact follows_error _ _ _ _
    | none =>
      have htable := serve_ensureTable hserve hholding
      have hdone := done_serve hinv hserve ⟨htx, hholding⟩ hdone
      refine follows_ask _ ((stable_done i).and (stable_holding htx _)) ⟨hdone, htable⟩
        (fun _ _ _ => htx) ?_
      rintro _ rep s₅ s₆ hinv ⟨hdone, hholding⟩ hserve -
      cases rep with
      | error err => exact follows_error _ _ _ _
      | ok found =>
        obtain ⟨rfl, hfound⟩ := serve_selectVersion hserve hholding
        rw [mem_recorded_iff hsorted hinv.sound.consistent hm] at hfound
        cases found with
        | true => exact follows_done _ (hfound.mp rfl)
        | false =>
          have hlen : s₆.db.tables.effects.length = i := by
            have : ¬ i < s₆.db.tables.effects.length := by simpa using hfound
            unfold Done at hdone
            omega
          refine follows_apply htx hdone ?_
          intro t cs hactive
          obtain ⟨hlock, hcs⟩ := hholding t cs hactive
          exact ⟨hlock, hcs, by rw [Due, hlen]; exact hm⟩

theorem follows_applyOne (hdone : Done i s) :
    (protocol ms dir).Follows q (Reaches (i + 1)) (applyOne m) s := by
  unfold applyOne
  simp only [Prog.request_bind]
  refine follows_ask _ (stable_done i) hdone (fun _ _ _ => trivial) ?_
  rintro x rep s₁ s₂ hinv hdone hserve hinv₂
  cases rep with
  | error err => exact follows_error _ _ _ _
  | ok tx =>
    obtain ⟨htx, hclean⟩ := serve_beginTx hserve
    have hdone := done_serve hinv hserve trivial hdone
    refine follows_bind ((follows_applyTx hsorted hm htx hdone hclean).mono ?_) hinv₂
    intro out s hinv hout
    -- the deferred rollback
    split_ifs
    · refine follows_ask _ (stable_reaches (i + 1) out) hout (fun _ _ _ => htx) ?_
      rintro _ rep s₃ s₄ hinv hout hserve -
      refine follows_ret (stable_reaches (i + 1) out) ?_
      intro hnone
      exact done_serve hinv hserve htx (hout hnone)
    · exact follows_ret (stable_reaches (i + 1) out) hout

omit hm

/-- The loop: without an error all migrations have taken effect in the end. -/
theorem follows_applyAll (done : List Migration) {rest : List Migration}
    (hms : ms = done ++ rest) (hinv : Inv ms s) (hdone : Done done.length s) :
    (protocol ms dir).Follows q (fun res s => res = none → Done ms.length s) (applyAll rest) s := by
  induction rest generalizing done s with
  | nil =>
    refine follows_ret (fun _ _ hm h hres => stable_done _ hm (h hres)) ?_
    intro _
    simpa [hms] using hdone
  | cons m rest ih =>
    have hget : ms[done.length]? = some m := by
      rw [hms, List.getElem?_append_right (le_refl _), Nat.sub_self]
      rfl
    unfold applyAll
    refine follows_bind ((follows_applyOne hsorted hget hdone).mono ?_) hinv
    intro out s hinv hout
    cases hres : out.2 with
    | some err => exact follows_ret (fun _ _ hm h hres => stable_done _ hm (h hres)) (by simp)
    | none =>
      have hms' : ms = (done ++ [m]) ++ rest := by simpa using hms
      exact ih (done ++ [m]) hms' hinv (by simpa using hout hres)

end programs

section runs
variable {dir : Except Err (List DirEntry)} {init : Tables}
  {c : Config Nat Req Rep State Unit (Option Err)}

theorem inv_init (hinit : Consistent ms init) : Inv ms (State.init init) := by
  refine ⟨⟨⟨by simp [State.init], by simp [State.init]⟩, hinit, ?_, ?_, ?_⟩, fun _ _ => rfl⟩
  · intro tx hne
    exact absurd rfl hne
  · exact fun _ => .nothing
  · simp [State.init]

theorem code_eq (hload : loadMigrations dir = .ok ms) (p : Nat) (call : Unit) :
    (runners dir).code p call = applyAll ms := by
  show migrate dir = applyAll ms
  rw [migrate, hload]

theorem holds_of_runners (hload : loadMigrations dir = .ok ms) (hinit : Consistent ms init)
    (hc : (runners dir).Reachable (State.init init) c) :
    (protocol ms dir).Holds (fun _ _ res s => res = none → Done ms.length s) c := by
  apply holds_of_reachable (G := protocol ms dir) (inv_init hinit) ?_ hc
  rintro p call s s' hinv haccept
  cases haccept
  rw [code_eq hload]
  exact follows_applyAll (loadMigrations_sorted hload) [] rfl hinv (Nat.zero_le _)

end runs
end GolangBasics.Pgx
