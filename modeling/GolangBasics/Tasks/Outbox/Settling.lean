import GolangBasics.Tasks.Outbox.Rejections

/-! The protocol that keeps the count of the rejections, laid over that of the passes, and that
every pass follows it. -/
namespace GolangBasics.Tasks.Outbox
open Conc Conc.Protocol List

variable {cfg : Config} {limit p : Nat} {s s' : State}

section

variable {db db' : Database Nat Unit Change (List Row)} {log : List Sent}

theorem counted_stage {t : Nat} {cs : List Change} {c : Change} (h : Counted limit db log)
    (hp : db.session p = some (.active t cs))
    (halive : ∀ id ∈ c.settles, Alive limit db.tables id) :
    Counted limit (db.write p t cs [] c) log := by
  refine counted_step h (.write [] c hp (by simp)) rfl rfl (fun d hd => ?_)
    (by simp [Database.write])
  rcases Database.mem_changes_write hp hd with hd | rfl
  · exact .inl hd
  · exact .inr halive

end

theorem Cleared.counted (h : Cleared p s s') (hs : Counted limit s.db s.log) :
    Counted limit s'.db s'.log := by
  cases h with
  | same => exact hs
  | step h htables hcommitted hnone hnot =>
    exact counted_step hs h htables hcommitted (by simp [hnone]) fun cs hcs => absurd hcs (hnot cs)

/-- When a request keeps the count. -/
def counts (cfg : Config) (p : Nat) (r : Req) (s : State) : Prop :=
  match r with
  | .send id _ | .recordRejection id _ _ => ∀ t cs, s.db.session p = some (.active t cs) →
      Alive cfg.limit s.db.tables id
  | .deletePublished ids => ∀ t cs, s.db.session p = some (.active t cs) →
      ∀ id ∈ ids, Alive cfg.limit s.db.tables id
  | .commit => ∀ t cs, s.db.session p = some (.active t cs) → Balanced s.log p cs
  | _ => True

theorem counted_effect {r : Req} (hinv : Inv false s) (h : Counted cfg.limit s.db s.log)
    (hlive : s.db.session p ≠ some .crashed) (hpre : pre false p r s) (hcounts : counts cfg p r s)
    (heffect : Effect p s r s') : Counted cfg.limit s'.db s'.log := by
  cases heffect with
  | skip => exact h
  | abort aborts => exact (cleared_abort p s aborts).counted h
  | close => exact (cleared_rollback p s).counted h
  | start hnone => exact (cleared_start hnone).counted h
  | lock hp hfree =>
    refine counted_step h (.acquire [()] hp (by simp [hfree])) rfl rfl (fun c hc => .inl hc) ?_
    intro cs hcs
    have hcs : s.db.session p = some (.committing cs) := hcs
    simp [hp] at hcs
  | send result =>
    rcases hpre with hcrash | ⟨⟨t, cs, hp⟩, -⟩
    · exact absurd hcrash hlive
    · exact counted_sent h hinv.2 hp _ result
  | rejection hp n =>
    refine counted_stage h hp fun id hid => ?_
    obtain rfl := mem_singleton.mp hid
    exact hcounts _ _ hp
  | failure hp => exact counted_stage h hp (by simp [Change.settles])
  | delete hp => exact counted_stage h hp (hcounts _ _ hp)
  | commit hp => exact counted_commit h hinv.2 (.inl hp) (hcounts _ _ hp)
  | @suspend t cs hp =>
    refine counted_step h (.suspend hp) rfl rfl
      (fun c hc => .inl (Database.changes_suspend hp ▸ hc)) fun cs' hcs => ?_
    obtain rfl : cs = cs' := by simpa using hcs
    exact hcounts _ _ hp

theorem counted_env {e : Env} (hinv : Inv false s) (h : Counted cfg.limit s.db s.log)
    (henv : env false e s = some s') : Counted cfg.limit s'.db s'.log := by
  cases env_happens henv with
  | enqueue hfresh => exact counted_enqueue h cfg.limit_pos (row_ne_of_fresh hinv hfresh)
  | tick d => exact ⟨h.counted, h.bounded, h.once, h.started, h.committing, h.alive⟩
  | ended hp hx hy => exact (cleared_close hp hx hy).counted h
  | @land p cs hp => exact counted_commit (t := 0) h hinv.2 (.inr hp) (h.committing p cs hp)

theorem serve_replicas {r : Req} {x : Choice} {rep : Rep r}
    (h : ((protocol false).guard (replicas cfg)).serve p r x s = some (rep, s')) :
    pre false p r s ∧ x.atomic ∧ serve false p r x s = some (rep, s') := by
  obtain ⟨hpre, h⟩ := serve_guard h
  simp only [replicas] at h
  split_ifs at h with hatomic
  exact ⟨hpre, hatomic, h⟩

theorem accept_replicas {call : Bool × Config}
    (h : ((protocol false).guard (replicas cfg)).accept p call s = some s') :
    s' = s ∧ s.db.session p = none ∧ call.2.maxAttempts = cfg.maxAttempts := by
  simp only [Protocol.guard, replicas, passes] at h
  split_ifs at h with hmax hnone
  cases h
  exact ⟨rfl, by simpa using hnone, hmax⟩

noncomputable def accounting (cfg : Config) : Protocol ((protocol false).guard (replicas cfg)) where
  inv s := Inv false s ∧ Counted cfg.limit s.db s.log
  pre := counts cfg
  serve_inv hs hcounts h := by
    obtain ⟨hpre, -, h⟩ := serve_replicas h
    obtain ⟨hlive, heffect⟩ := serve_effect h
    exact ⟨(serve_move hpre h).inv hs.1, counted_effect hs.1 hs.2 hlive hpre hcounts heffect⟩
  env_inv hs h := ⟨env_inv hs.1 h, counted_env hs.1 hs.2 h⟩
  accept_inv hs h := by
    obtain ⟨rfl, -⟩ := accept_replicas h
    exact hs

theorem kept_of_accounting {q : Nat} (h : (accounting cfg).Moves q s s') : Kept false q s s' := by
  cases h with
  | serve hpq hinv hcounts h =>
    obtain ⟨hpre, -, h⟩ := serve_replicas h
    exact kept_move hinv.1 hpq (serve_move hpre h)
  | env hinv h => exact kept_env hinv.1 h
  | accept hpq hinv h =>
    obtain ⟨rfl, -⟩ := accept_replicas h
    exact kept_of_same ⟨[], rfl, by simp⟩ rfl rfl id fun _ => rfl

/-- The transaction has counted the rejections its pass got, except those of `due`. -/
def Tallied (p : Nat) (due : List Nat) (s : State) : Prop :=
  ∀ t cs, s.db.session p = some (.active t cs) →
    ∀ id, rejects cs id + due.count id = (rejectedBy s.log p id).toNat

def Unsent (p : Nat) (batch : List Pending) (s : State) : Prop :=
  ∀ y ∈ s.log, y.pass = p → ∀ x ∈ batch, y.row ≠ x.id

/-- While its transaction is active, the pass has the lock, has deleted nothing, and the rows
are in the table and not dead. -/
def Secured (cfg : Config) (p : Nat) (ids : List Nat) (s : State) : Prop :=
  ∀ t cs, s.db.session p = some (.active t cs) → s.db.locks () = some p ∧ deletes cs = [] ∧
    ∀ id ∈ ids, ∃ r ∈ s.db.tables, r.id = id ∧ r.rejections < cfg.limit

def Inactive (p : Nat) (s : State) : Prop := ∀ t cs, s.db.session p ≠ some (.active t cs)

theorem stable_tallied (due : List Nat) : (accounting cfg).Stable p (Tallied p due) := by
  intro s s' hm h t cs hactive id
  have hk := kept_of_accounting hm
  obtain ⟨new, hlog, hnew⟩ := hk.log
  rw [hlog, rejectedBy_append hnew]
  exact h t cs (hk.back t cs hactive) id

theorem Unsent.kept {batch : List Pending} (h : Unsent p batch s) (hk : Kept false p s s') :
    Unsent p batch s' := by
  intro y hy hpass
  obtain ⟨new, hlog, hnew⟩ := hk.log
  rw [hlog] at hy
  rcases mem_append.mp hy with hy | hy
  · exact absurd hpass (hnew y hy)
  · exact h y hy hpass

theorem Unsent.sent {x : Pending} {batch : List Pending} (h : Unsent p (x :: batch) s)
    (hlt : ∀ z ∈ batch, x.id < z.id) (result : Option Err) :
    Unsent p batch { s with log := ⟨p, x.id, result⟩ :: s.log } := by
  intro y hy hpass z hz
  rcases mem_cons.mp hy with rfl | hy
  · exact (hlt z hz).ne
  · exact h y hy hpass z (mem_cons_of_mem _ hz)

theorem stable_unsent (batch : List Pending) : (accounting cfg).Stable p (Unsent p batch) :=
  fun _ _ hm h => h.kept (kept_of_accounting hm)

theorem stable_secured (ids : List Nat) : (accounting cfg).Stable p (Secured cfg p ids) := by
  intro s s' hm h t cs hactive
  have hk := kept_of_accounting hm
  obtain ⟨hlock, hdel, hrows⟩ := h t cs (hk.back t cs hactive)
  refine ⟨hk.lock t cs hactive hlock, hdel, fun id hid => ?_⟩
  obtain ⟨r, hr, hrow⟩ := hrows id hid
  exact ⟨r, hk.rows hlock t cs hactive r hr, hrow⟩

variable {ids : List Nat} {id : Nat}

/-- Ids are unique, so the row the pass secured is the only one with its id. -/
theorem Secured.alive (h : Secured cfg p ids s) (hinv : Inv false s) {t : Nat} {cs : List Change}
    (hactive : s.db.session p = some (.active t cs)) (hid : id ∈ ids) :
    Alive cfg.limit s.db.tables id := by
  intro r hr hrow
  obtain ⟨r₀, h₀, hid₀, hlt⟩ := (h t cs hactive).2.2 id hid
  obtain rfl : r = r₀ :=
    inj_on_of_nodup_map hinv.1.rowIds hr h₀ (hrow.trans hid₀.symm)
  exact hlt

theorem Secured.in_view (h : Secured cfg p ids s) {t : Nat} {cs : List Change}
    (hactive : s.db.session p = some (.active t cs)) (hid : id ∈ ids) :
    ∃ r ∈ s.db.view apply p, r.id = id := by
  obtain ⟨-, hdel, hrows⟩ := h t cs hactive
  obtain ⟨r₀, h₀, hid₀, -⟩ := hrows id hid
  have hnot : r₀.id ∉ deletes cs := by simp [hdel]
  obtain ⟨r, hr, hpend⟩ := exists_mem_applyAll h₀ hnot
  refine ⟨r, ?_, (congrArg Pending.id hpend).trans hid₀⟩
  rw [Database.view, Database.changes_active hactive]
  exact hr

theorem Inactive.tallied (h : Inactive p s) (due : List Nat) : Tallied p due s :=
  fun t cs hactive => absurd hactive (h t cs)

theorem Inactive.secured (h : Inactive p s) (ids : List Nat) : Secured cfg p ids s :=
  fun t cs hactive => absurd hactive (h t cs)

theorem inactive_close (p : Nat) (s : State) : Inactive p (s.close p) := by
  intro t cs hactive
  unfold State.close at hactive
  split at hactive
  · simp [Database.close] at hactive
  · simp [Database.close] at hactive
  · exact ‹∀ t cs, s.db.session p = some (.active t cs) → False› t cs hactive

theorem inactive_abort (p : Nat) (s : State) : Inactive p (s.abort p true) := by
  intro t cs hactive
  unfold State.abort at hactive
  split at hactive
  · simp at hactive
  · exact ‹∀ t cs, s.db.session p = some (.active t cs) → False› t cs hactive

theorem abort_cases (p : Nat) (s : State) (aborts : Bool) :
    s.abort p aborts = s ∨ Inactive p (s.abort p aborts) := by
  cases aborts with
  | true => exact .inr (inactive_abort p s)
  | false =>
    left
    unfold State.abort
    split <;> rfl

section Stage

variable {t : Nat} {cs : List Change} {c : Change}

theorem active_stage {t' : Nat} {cs' : List Change}
    (h : (s.stage p t cs c).db.session p = some (.active t' cs')) : t' = t ∧ cs' = cs ++ [c] := by
  have h : (s.db.put p (.active t (cs ++ [c]))).session p = some (.active t' cs') := h
  obtain ⟨rfl, rfl⟩ : t = t' ∧ cs ++ [c] = cs' := by simpa using h
  exact ⟨rfl, rfl⟩

theorem Tallied.stage {due due' : List Nat} (h : Tallied p due s)
    (hp : s.db.session p = some (.active t cs))
    (hdue : ∀ id, (c.rejects id).toNat + due'.count id = due.count id) :
    Tallied p due' (s.stage p t cs c) := by
  intro t' cs' hactive id
  obtain ⟨rfl, rfl⟩ := active_stage hactive
  have hold := h _ cs hp id
  have hnew := hdue id
  rw [rejects_append]
  have hlog : (s.stage p t' cs c).log = s.log := rfl
  rw [hlog]
  omega

theorem Secured.stage (h : Secured cfg p ids s) (hp : s.db.session p = some (.active t cs))
    (hc : deletes [c] = []) : Secured cfg p ids (s.stage p t cs c) := by
  intro t' cs' hactive
  obtain ⟨rfl, rfl⟩ := active_stage hactive
  obtain ⟨hlock, hdel, hrows⟩ := h _ cs hp
  refine ⟨hlock, ?_, hrows⟩
  rw [deletes_append, hdel, hc]
  rfl

end Stage

theorem Tallied.sent {result : Option Err} (h : Tallied p [] s)
    (hnew : ∀ y ∈ s.log, y.pass = p → y.row ≠ id) :
    Tallied p (if result.any Err.rejected then [id] else [])
      { s with log := ⟨p, id, result⟩ :: s.log } := by
  intro t cs hactive id'
  have hold := h t cs hactive id'
  have hfalse := rejectedBy_eq_false hnew
  simp only [rejectedBy, any_cons, Sent.rejected] at hold hfalse ⊢
  split_ifs with hrej
  · by_cases hid : id = id'
    · subst hid
      simp only [hfalse] at hold
      simp [hrej]
      simpa using hold
    · simpa [hid] using hold
  · simp only [Bool.not_eq_true] at hrej
    simpa [hrej] using hold

/-- A rejection of a row in the table is recorded, or the transaction is lost. -/
theorem serve_rejection {x : Choice} {backoff : Nat} {lastError : Bytes} {rep : Except Err Nat}
    (hatomic : x.atomic) (hrow : ∀ t cs, s.db.session p = some (.active t cs) →
      ∃ r ∈ s.db.view apply p, r.id = id)
    (h : serve false p (.recordRejection id lastError backoff) x s = some (rep, s')) :
    (∀ n, rep = .ok n → ∃ t cs m, s.db.session p = some (.active t cs) ∧
      s' = s.stage p t cs (.rejection id lastError m)) ∧
    ∀ err, rep = .error err → Inactive p s' := by
  rcases recordRejection_cases h with ⟨err, aborts, rfl, rfl, hlost⟩ |
    ⟨t, cs, hp, ⟨err, rfl, rfl, hnone⟩ | ⟨r, -, -, next, -, rfl, rfl⟩⟩
  · obtain rfl : aborts = true := by
      rcases hlost with rfl | hlost
      · exact hatomic
      · exact hlost
    exact ⟨by simp, fun _ _ => inactive_abort p s⟩
  · obtain ⟨r, hr, hid⟩ := hrow t cs hp
    exact absurd hid (hnone r hr)
  · exact ⟨fun _ _ => ⟨t, cs, next, hp, rfl⟩, by simp⟩

def Settling (cfg : Config) (p : Nat) (ids : List Nat) (acc : Progress) (s : State) : Prop :=
  Tallied p [] s ∧ Secured cfg p ids s ∧ ∀ id ∈ acc.done, id ∈ ids

theorem stable_settling (ids : List Nat) (acc : Progress) :
    (accounting cfg).Stable p (Settling cfg p ids acc) :=
  (stable_tallied []).and ((stable_secured ids).and (Stable.const _))

theorem settling_failure {lastError : Bytes} (htallied : Tallied p [] s)
    (hsecured : Secured cfg p ids s) (h : Effect p s (.recordFailure id lastError) s') :
    Tallied p [] s' ∧ Secured cfg p ids s' := by
  cases h with
  | skip => exact ⟨htallied, hsecured⟩
  | abort aborts =>
    rcases abort_cases p s aborts with hsame | hlost
    · rw [hsame]
      exact ⟨htallied, hsecured⟩
    · exact ⟨hlost.tallied [], hlost.secured ids⟩
  | close => exact ⟨(inactive_close p s).tallied [], (inactive_close p s).secured ids⟩
  | failure hp => exact ⟨htallied.stage hp fun _ => rfl, hsecured.stage hp rfl⟩

/-- The publish loop, by induction on the rest of the batch. -/
theorem settling_publishBatch (r : Relay) (batch : List Pending) (acc : Progress)
    (hsorted : batch.Pairwise fun x y => x.id < y.id) (hbatch : ∀ x ∈ batch, x.id ∈ ids)
    (hunsent : Unsent p batch s) (hs : Settling cfg p ids acc s) :
    (accounting cfg).Follows p (Settling cfg p ids) (r.publishBatch batch acc) s := by
  induction batch generalizing acc s with
  | nil => exact follows_ret (stable_settling ids acc) hs
  | cons x batch ih =>
    obtain ⟨hlt, hrest⟩ := pairwise_cons.mp hsorted
    have hx : x.id ∈ ids := hbatch x mem_cons_self
    have hids : ∀ z ∈ batch, z.id ∈ ids := fun z hz => hbatch z (mem_cons_of_mem _ hz)
    have hA : (accounting cfg).Stable p
        fun s => Unsent p (x :: batch) s ∧ Settling cfg p ids acc s :=
      (stable_unsent (x :: batch)).and (stable_settling ids acc)
    unfold Relay.publishBatch
    simp only [Relay.publish, Prog.request_bind]
    refine follows_ask _ hA ⟨hunsent, hs⟩ (fun _ _ _ => trivial) ?_
    rintro _ b s₁ s₂ - ⟨hunsent, hs⟩ hserve -
    obtain rfl := serve_ctxErr (serve_replicas hserve).2.2
    cases b with
    | true => exact follows_ret (stable_settling ids acc) hs
    | false =>
      refine follows_ask _ hA ⟨hunsent, hs⟩
        (fun s hinv h t cs hactive => h.2.2.1.alive hinv.1 hactive hx) ?_
      rintro _ result s₁ s₂ - ⟨hunsent, htallied, hsecured, hdone⟩ hserve -
      obtain rfl := serve_send (serve_replicas hserve).2.2
      have hnew : ∀ y ∈ s₁.log, y.pass = p → y.row ≠ x.id :=
        fun y hy hpass => hunsent y hy hpass x mem_cons_self
      have hunsent' := hunsent.sent hlt result
      have htallied' : Tallied p (if result.any Err.rejected then [x.id] else [])
          { s₁ with log := ⟨p, x.id, result⟩ :: s₁.log } := htallied.sent hnew
      cases result with
      | none =>
        refine ih ⟨acc.done ++ [x.id], acc.taken + 1, acc.pubErr⟩ hrest hids hunsent'
          ⟨htallied', hsecured, fun id hid => ?_⟩
        rcases mem_append.mp hid with hid | hid
        · exact hdone id hid
        · obtain rfl := mem_singleton.mp hid
          exact hx
      | some err =>
        simp only [Option.any_some] at htallied' ⊢
        split_ifs at htallied' ⊢ with hrej
        · refine follows_ask _ ((stable_tallied [x.id]).and ((stable_unsent batch).and
            (stable_secured ids))) ⟨htallied', hunsent', hsecured⟩
            (fun s hinv h t cs hactive => h.2.2.alive hinv.1 hactive hx) ?_
          rintro _ rep s₃ s₄ - ⟨htallied, hunsent, hsecured⟩ hserve -
          obtain ⟨-, hatomic, hserve⟩ := serve_replicas hserve
          obtain ⟨hok, herror⟩ := serve_rejection hatomic
            (fun t cs hactive => hsecured.in_view hactive hx) hserve
          cases rep with
          | error uerr =>
            have hlost := herror uerr rfl
            exact follows_ret (stable_settling ids _)
              ⟨hlost.tallied [], hlost.secured ids, hdone⟩
          | ok n =>
            obtain ⟨t, cs, m, hp, rfl⟩ := hok n rfl
            refine ih _ hrest hids hunsent ⟨htallied.stage hp fun id => ?_,
              hsecured.stage hp rfl, hdone⟩
            by_cases hid : x.id = id <;> simp [Change.rejects, hid]
        · refine follows_ask _ (stable_settling ids acc) ⟨htallied', hsecured, hdone⟩
            (fun _ _ _ => trivial) ?_
          rintro _ rep s₃ s₄ - ⟨htallied, hsecured, -⟩ hserve -
          obtain ⟨-, heffect⟩ := serve_effect (serve_replicas hserve).2.2
          obtain ⟨htallied, hsecured⟩ := settling_failure htallied hsecured heffect
          cases rep with
          | none => exact follows_ret (stable_settling ids _) ⟨htallied, hsecured, hdone⟩
          | some uerr => exact follows_ret (stable_settling ids _) ⟨htallied, hsecured, hdone⟩

theorem settling_commit {k : Option Err → Pass Outcome}
    (hk : ∀ rep s, (accounting cfg).Follows p (fun _ _ => True) (k rep) s)
    (htallied : Tallied p [] s) :
    (accounting cfg).Follows p (fun _ _ => True) (.ask .commit k) s := by
  refine follows_ask _ (stable_tallied []) htallied (fun s _ h t cs hactive id => ?_)
    fun _ rep _ s' _ _ _ _ => hk rep s'
  exact h t cs hactive id

theorem tallied_delete (htallied : Tallied p [] s) (h : Effect p s (.deletePublished ids) s') :
    Tallied p [] s' := by
  cases h with
  | skip => exact htallied
  | abort aborts =>
    rcases abort_cases p s aborts with hsame | hlost
    · rw [hsame]
      exact htallied
    · exact hlost.tallied []
  | close => exact (inactive_close p s).tallied []
  | delete hp => exact htallied.stage hp fun _ => rfl

theorem settling_finish (acc : Progress) (hs : Settling cfg p ids acc s) :
    (accounting cfg).Follows p (fun _ _ => True) acc.finish s := by
  unfold Progress.finish
  split_ifs with hdone
  · simp only [Prog.pure_eq_ret, Prog.ret_bind, Prog.request_bind]
    refine settling_commit (fun rep s => ?_) hs.1
    cases rep <;> exact follows_end _ s
  · simp only [Prog.request_bind]
    refine follows_ask _ (stable_settling ids acc) hs
      (fun s hinv h t cs hactive id hid => h.2.1.alive hinv.1 hactive (h.2.2 id hid)) ?_
    rintro _ rep s₁ s₂ - ⟨htallied, -⟩ hserve -
    obtain ⟨-, heffect⟩ := serve_effect (serve_replicas hserve).2.2
    cases rep with
    | some err => exact follows_end _ _
    | none =>
      refine settling_commit (fun rep s => ?_) (tallied_delete htallied heffect)
      cases rep <;> exact follows_end _ s

/-- The pass has published nothing. -/
def Silent (p : Nat) (s : State) : Prop := ∀ y ∈ s.log, y.pass ≠ p

theorem Silent.kept (h : Silent p s) (hk : Kept false p s s') : Silent p s' := by
  intro y hy
  obtain ⟨new, hnew, hother⟩ := hk.log
  rw [hnew] at hy
  rcases mem_append.mp hy with hy | hy
  · exact hother y hy
  · exact h y hy

theorem Silent.congr (hlog : s'.log = s.log) (h : Silent p s) : Silent p s' := by
  unfold Silent
  rw [hlog]
  exact h

theorem Silent.unsent (h : Silent p s) (batch : List Pending) : Unsent p batch s :=
  fun y hy hpass => absurd hpass (h y hy)

theorem layer_accounting (cfg : Config) : Layer false (accounting cfg) where
  inv := And.left
  served h := (serve_replicas h).2.2
  kept := kept_of_accounting
  begins := ⟨trivial, trivial⟩
  selects := trivial
  rolls := trivial

theorem selected_alive {rows : List Row} {limit maxAttempts now : Nat} {locked : List Nat}
    {x : Pending} (hx : x ∈ selectRows rows limit maxAttempts now locked) :
    ∃ r ∈ rows, r.id = x.id ∧ r.rejections < maxAttempts := by
  obtain ⟨r, hr, rfl, hdue⟩ := mem_selectRows hx
  simp only [Row.due, Bool.and_eq_true, decide_eq_true_eq] at hdue
  exact ⟨r, hr, rfl, hdue.1⟩

theorem settling_relayOnce (r : Relay) (hmax : r.cfg.maxAttempts.toNat = cfg.limit)
    (hs : s.db.session p = none) :
    (accounting cfg).Follows p (fun _ _ => True) r.relayOnce s := by
  refine (layer_accounting cfg).follows_relayOnce
    (fun _ _ hm (h : Silent p _) => h.kept (kept_of_accounting hm)) (fun _ _ => Silent.congr)
    (fun s start locked hinv hsilent hs hlock _ => ?_)
    (fun s hinv hs y hy hpass => hinv.2.started y hy (hpass ▸ hs)) hs
  have hnone : ∀ id, rejectedBy s.log p id = false :=
    fun id => rejectedBy_eq_false fun y hy hpass => absurd hpass (hsilent y hy)
  rw [hmax]
  refine (settling_publishBatch r _ ⟨[], 0, none⟩ (selectRows_sorted hinv.1.1.rowIds _ _ _ _)
    (fun x => mem_map_of_mem) (hsilent.unsent _) ⟨fun t cs hactive id => ?_,
      fun t cs hactive => ?_, by simp⟩).mono fun acc s _ h => settling_finish acc h
  · obtain ⟨-, rfl⟩ : start = t ∧ [] = cs := by simpa [hs] using hactive
    rw [hnone id]
    rfl
  · obtain ⟨-, rfl⟩ : start = t ∧ [] = cs := by simpa [hs] using hactive
    refine ⟨hlock, rfl, fun id hid => ?_⟩
    obtain ⟨x, hx, rfl⟩ := mem_map.mp hid
    exact selected_alive hx

theorem restricts_replicas (cfg : Config) : (replicas cfg).Restricts (passes false) := by
  refine ⟨fun h => ?_, fun h => h, fun h => ?_, rfl⟩
  · simp only [replicas] at h
    split_ifs at h
    exact h
  · simp only [replicas] at h
    split_ifs at h
    exact h

theorem counted_of_run {c : Conc.Config Nat Req Rep State (Bool × Config) Outcome}
    (hc : (replicas cfg).Reachable State.init c) :
    (accounting cfg).Holds (fun _ _ _ _ => True) c := by
  have hinit : (accounting cfg).inv State.init :=
    ⟨⟨records_init false, sessions_init⟩, counted_init cfg.limit⟩
  refine holds_of_reachable hinit (fun p call s s' _ haccept => ?_)
    ((restricts_replicas cfg).reachable_guard holds_of_run hc)
  obtain ⟨rfl, hnone, hmax⟩ := accept_replicas haccept
  exact settling_relayOnce _ (Config.limit_congr hmax) hnone

end GolangBasics.Tasks.Outbox
