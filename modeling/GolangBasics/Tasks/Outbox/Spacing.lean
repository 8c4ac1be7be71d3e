import GolangBasics.Conc.Trace
import GolangBasics.Tasks.Outbox.Settling

/-! A second protocol over that of the passes: a pass publishes only rows that were due when
its transaction began, and counts a rejection of a row only after it has published the row
itself, and once. -/
namespace GolangBasics.Tasks.Outbox
open Conc Conc.Protocol List

def SentBy (log : List Sent) (p id : Nat) : Prop := ∃ y ∈ log, y.pass = p ∧ y.row = id

def DueAt (t : Nat) (rows : List Row) (id : Nat) : Prop :=
  ∀ r ∈ rows, r.id = id → r.nextAttemptAt.all (· ≤ t)

/-- Transactions began in the past. Whoever has published holds the lock until its session
ends, and decides the fate only of rows it has published. -/
structure Spaced (db : Database Nat Unit Change (List Row)) (log : List Sent) : Prop where
  past : ∀ q t cs, db.session q = some (.active t cs) → t ≤ db.clock
  held : ∀ y ∈ log, db.locks () = some y.pass ∨ db.Ended y.pass
  backed : ∀ q, ∀ c ∈ db.changes q, ∀ id ∈ c.settles, SentBy log q id

variable {p : Nat} {s s' : State}

theorem SentBy.mono {log log' : List Sent} {id : Nat} (h : SentBy log p id)
    (hsub : log ⊆ log') : SentBy log' p id := by
  obtain ⟨y, hy, h⟩ := h
  exact ⟨y, hsub hy, h⟩

variable {cs : List Change}

section

variable {db db' : Database Nat Unit Change (List Row)} {log : List Sent}

theorem spaced_step (h : Spaced db log) (hstep : db.Step apply p db')
    (hchanges : ∀ c ∈ db'.changes p, c ∈ db.changes p ∨ ∀ id ∈ c.settles, SentBy log p id) :
    Spaced db' log := by
  refine ⟨fun q t cs hq => ?_, fun y hy => ?_, fun q c hc => ?_⟩
  · rw [hstep.clock]
    rcases hstep.began hq with ⟨cs', hq⟩ | ⟨-, rfl⟩
    · exact h.past q t cs' hq
    · exact le_rfl
  · rcases h.held y hy with hlock | hended
    · by_cases hyp : y.pass = p
      · rw [hyp] at hlock ⊢
        exact hstep.locks_self hlock
      · exact .inl ((hstep.locks_of_ne hyp).mpr hlock)
    · exact .inr (hstep.ended hended)
  · by_cases hqp : q = p
    · subst hqp
      rcases hchanges c hc with hold | hnew
      · exact h.backed q c hold
      · exact hnew
    · rw [Database.changes_congr (hstep.session_of_ne hqp)] at hc
      exact h.backed q c hc

theorem spaced_ended (h : Spaced db log) (hstep : db.Step apply p db')
    (hnone : db'.changes p = []) : Spaced db' log :=
  spaced_step h hstep (by simp [hnone])

theorem spaced_commit {t : Nat} (h : Spaced db log)
    (hp : db.session p = some (.active t cs) ∨ db.session p = some (.committing cs)) :
    Spaced (db.commit apply p cs) log := by
  refine spaced_ended h (.commit hp) (Database.changes_of_ended ?_)
  exact ⟨.closed, Database.put_session_self, rfl⟩

theorem spaced_stage {t : Nat} {c : Change} (h : Spaced db log)
    (hp : db.session p = some (.active t cs)) (hc : ∀ id ∈ c.settles, SentBy log p id) :
    Spaced (db.write p t cs [] c) log := by
  refine spaced_step h (.write [] c hp (by simp)) fun d hd => ?_
  rcases Database.mem_changes_write hp hd with hd | rfl
  · exact .inl hd
  · exact .inr hc

theorem spaced_sent (h : Spaced db log) {id : Nat} (hlock : db.locks () = some p)
    (result : Option Err) : Spaced db (⟨p, id, result⟩ :: log) := by
  refine ⟨h.past, fun y hy => ?_, fun q c hc i hi => ?_⟩
  · rcases mem_cons.mp hy with rfl | hy
    · exact .inl hlock
    · exact h.held y hy
  · exact (h.backed q c hc i hi).mono (subset_cons_self _ _)

end

theorem Cleared.spaced (h : Cleared p s s') (hs : Spaced s.db s.log) : Spaced s'.db s'.log := by
  cases h with
  | same => exact hs
  | step h _ _ hnone => exact spaced_ended hs h hnone

def spaces (p : Nat) (r : Req) (s : State) : Prop :=
  match r with
  | .send id _ => ∀ t cs, s.db.session p = some (.active t cs) →
      DueAt t s.db.tables id ∧ ¬ SentBy s.log p id
  | .recordRejection id _ _ => ∀ t cs, s.db.session p = some (.active t cs) →
      SentBy s.log p id ∧ rejects cs id = 0
  | _ => True

theorem spaced_effect {r : Req} (h : Spaced s.db s.log)
    (hlive : s.db.session p ≠ some .crashed) (hpre : pre false p r s) (hspaces : spaces p r s)
    (heffect : Effect p s r s') : Spaced s'.db s'.log := by
  cases heffect with
  | skip => exact h
  | abort aborts => exact (cleared_abort p s aborts).spaced h
  | close => exact (cleared_rollback p s).spaced h
  | start hnone => exact (cleared_start hnone).spaced h
  | lock hp hfree =>
    exact spaced_step h (.acquire [()] hp (by simp [hfree])) fun c hc => .inl hc
  | send result =>
    rcases hpre with hcrash | ⟨-, hlock, -⟩
    · exact absurd hcrash hlive
    · exact spaced_sent h hlock result
  | rejection hp n =>
    refine spaced_stage h hp fun id hid => ?_
    obtain rfl := mem_singleton.mp hid
    exact (hspaces _ _ hp).1
  | failure hp => exact spaced_stage h hp (by simp [Change.settles])
  | delete hp =>
    refine spaced_stage h hp fun id hid => ?_
    obtain ⟨y, hy, hpass, hrow, -⟩ := (hpre _ _ hp).2 id hid
    exact ⟨y, hy, hpass, hrow⟩
  | commit hp => exact spaced_commit h (.inl hp)
  | @suspend t cs hp =>
    exact spaced_step h (.suspend hp) fun c hc => .inl (Database.changes_suspend hp ▸ hc)

theorem spaced_env {e : Env} (h : Spaced s.db s.log) (henv : env false e s = some s') :
    Spaced s'.db s'.log := by
  cases env_happens henv with
  | enqueue => exact ⟨h.past, h.held, h.backed⟩
  | tick d =>
    exact ⟨fun q t cs hq => (h.past q t cs hq).trans (Nat.le_add_right _ _), h.held, h.backed⟩
  | ended hp hx hy => exact (cleared_close hp hx hy).spaced h
  | land hp => exact spaced_commit (t := 0) h (.inr hp)

noncomputable def spacing : Protocol ((protocol false).guard (passes false)) where
  inv s := Inv false s ∧ Spaced s.db s.log
  pre := spaces
  serve_inv hs hspaces h := by
    obtain ⟨hpre, h⟩ := serve_guard h
    obtain ⟨hlive, heffect⟩ := serve_effect h
    exact ⟨(serve_move hpre h).inv hs.1, spaced_effect hs.2 hlive hpre hspaces heffect⟩
  env_inv hs h := ⟨env_inv hs.1 h, spaced_env hs.2 h⟩
  accept_inv hs h := by
    simp only [Protocol.guard, passes] at h
    split_ifs at h
    cases h
    exact hs

theorem kept_of_spacing {q : Nat} (h : spacing.Moves q s s') : Kept false q s s' := by
  cases h with
  | serve hpq hinv _ h =>
    obtain ⟨hpre, h⟩ := serve_guard h
    exact kept_move hinv.1 hpq (serve_move hpre h)
  | env hinv h => exact kept_env hinv.1 h
  | accept hpq hinv h =>
    simp only [Protocol.guard, passes] at h
    split_ifs at h
    cases h
    exact kept_of_same ⟨[], rfl, by simp⟩ rfl rfl id fun _ => rfl

/-- While its transaction is active, the pass has the lock, and the rows are in the table and
were due when it began. -/
def Tracks (p : Nat) (ids : List Nat) (s : State) : Prop :=
  ∀ t cs, s.db.session p = some (.active t cs) → s.db.locks () = some p ∧
    ∀ id ∈ ids, ∃ r ∈ s.db.tables, r.id = id ∧ r.nextAttemptAt.all (· ≤ t)

/-- The pass has published the row and not counted a rejection of it. -/
def Uncounted (p id : Nat) (s : State) : Prop :=
  SentBy s.log p id ∧ ∀ t cs, s.db.session p = some (.active t cs) → rejects cs id = 0

theorem Unsent.head {x : Pending} {batch : List Pending} (h : Unsent p (x :: batch) s) :
    ¬ SentBy s.log p x.id := by
  rintro ⟨y, hy, hpass, hrow⟩
  exact h y hy hpass x mem_cons_self hrow

theorem stable_tracks (ids : List Nat) : spacing.Stable p (Tracks p ids) := by
  intro s s' hm h t cs hactive
  have hk := kept_of_spacing hm
  obtain ⟨hlock, hrows⟩ := h t cs (hk.back t cs hactive)
  refine ⟨hk.lock t cs hactive hlock, fun id hid => ?_⟩
  obtain ⟨r, hr, hrow⟩ := hrows id hid
  exact ⟨r, hk.rows hlock t cs hactive r hr, hrow⟩

theorem stable_uncounted (id : Nat) : spacing.Stable p (Uncounted p id) := by
  intro s s' hm ⟨hsent, hnone⟩
  have hk := kept_of_spacing hm
  obtain ⟨new, hlog, -⟩ := hk.log
  refine ⟨?_, fun t cs hactive => hnone t cs (hk.back t cs hactive)⟩
  rw [hlog]
  exact hsent.mono (subset_append_right _ _)

variable {ids : List Nat}

theorem Tracks.dueAt (h : Tracks p ids s) (hinv : Inv false s) {t : Nat}
    (hactive : s.db.session p = some (.active t cs)) {id : Nat} (hid : id ∈ ids) :
    DueAt t s.db.tables id := by
  intro r hr hrow
  obtain ⟨r₀, h₀, hid₀, hdue⟩ := (h t cs hactive).2 id hid
  obtain rfl : r = r₀ :=
    inj_on_of_nodup_map hinv.1.rowIds hr h₀ (hrow.trans hid₀.symm)
  exact hdue

theorem Quiet.tracks (h : Quiet p s s') (hs : Tracks p ids s) : Tracks p ids s' := by
  intro t cs hactive
  obtain ⟨cs', hactive'⟩ := h.active t cs hactive
  rw [h.locks, h.tables]
  exact hs t cs' hactive'

theorem Quiet.unsent (h : Quiet p s s') {batch : List Pending} (hs : Unsent p batch s) :
    Unsent p batch s' := by
  unfold Unsent
  rw [h.log]
  exact hs

theorem rejects_of_unsent {id : Nat} (h : Spaced s.db s.log) (hnew : ¬ SentBy s.log p id) {t : Nat}
    (hactive : s.db.session p = some (.active t cs)) : rejects cs id = 0 := by
  by_contra hne
  obtain ⟨c, hc, hsettles⟩ := exists_settles hne
  exact hnew (h.backed p c (by rwa [Database.changes_active hactive]) id hsettles)

/-- The publish loop, by induction on the rest of the batch. -/
theorem spacing_publishBatch (r : Relay) (batch : List Pending) (acc : Progress)
    (hsorted : batch.Pairwise fun x y => x.id < y.id) (hbatch : ∀ x ∈ batch, x.id ∈ ids)
    (hunsent : Unsent p batch s) (htracks : Tracks p ids s) :
    spacing.Follows p (fun _ _ => True) (r.publishBatch batch acc) s := by
  induction batch generalizing acc s with
  | nil => exact follows_end _ _
  | cons x batch ih =>
    obtain ⟨hlt, hrest⟩ := pairwise_cons.mp hsorted
    have hx : x.id ∈ ids := hbatch x mem_cons_self
    have hids : ∀ z ∈ batch, z.id ∈ ids := fun z hz => hbatch z (mem_cons_of_mem _ hz)
    have hunsentStable : ∀ batch, spacing.Stable p (Unsent p batch) :=
      fun _ _ _ hm h => h.kept (kept_of_spacing hm)
    have hA : spacing.Stable p fun s => Unsent p (x :: batch) s ∧ Tracks p ids s :=
      (hunsentStable _).and (stable_tracks ids)
    unfold Relay.publishBatch
    simp only [Relay.publish, Prog.request_bind]
    refine follows_ask _ hA ⟨hunsent, htracks⟩ (fun _ _ _ => trivial) ?_
    rintro _ b s₁ s₂ - ⟨hunsent, htracks⟩ hserve -
    obtain rfl := serve_ctxErr (serve_guard hserve).2
    cases b with
    | true => exact follows_end _ _
    | false =>
      refine follows_ask _ hA ⟨hunsent, htracks⟩
        (fun s hinv h t cs hactive => ⟨h.2.dueAt hinv.1 hactive hx, h.1.head⟩) ?_
      rintro _ result s₁ s₂ hinv ⟨hunsent, htracks⟩ hserve -
      obtain rfl := serve_send (serve_guard hserve).2
      have hunsent' := hunsent.sent hlt result
      have huncounted : Uncounted p x.id { s₁ with log := ⟨p, x.id, result⟩ :: s₁.log } :=
        ⟨⟨_, mem_cons_self, rfl, rfl⟩, fun t cs => rejects_of_unsent hinv.2 hunsent.head⟩
      have htracks' : Tracks p ids { s₁ with log := ⟨p, x.id, result⟩ :: s₁.log } := htracks
      cases result with
      | none => exact ih _ hrest hids hunsent' htracks'
      | some err =>
        simp only
        split_ifs with hrej
        · refine follows_ask _ ((stable_uncounted x.id).and ((hunsentStable batch).and
            (stable_tracks ids))) ⟨huncounted, hunsent', htracks'⟩
            (fun s _ h t cs hactive => ⟨h.1.1, h.1.2 t cs hactive⟩) ?_
          rintro _ rep s₃ s₄ - ⟨-, hunsent, htracks⟩ hserve -
          have hquiet := (serve_recordRejection (serve_guard hserve).2).1
          cases rep with
          | error uerr => exact follows_end _ _
          | ok n => exact ih _ hrest hids (hquiet.unsent hunsent) (hquiet.tracks htracks)
        · refine Prog.Only.follows ?_ _
          refine Prog.only_request (fun _ => trivial) fun rep => ?_
          cases rep <;> exact trivial

theorem finish_only {P : Req → Prop} (acc : Progress) (hdelete : ∀ ids, P (.deletePublished ids))
    (hcommit : P .commit) : acc.finish.Only P := by
  unfold Progress.finish
  split_ifs
  · refine Prog.only_request hcommit fun rep => ?_
    cases rep <;> exact trivial
  · refine Prog.only_request (hdelete _) fun deleted => ?_
    cases deleted with
    | some err => exact trivial
    | none =>
      refine Prog.only_request hcommit fun rep => ?_
      cases rep <;> exact trivial

theorem selected_due {rows : List Row} {limit maxAttempts now : Nat} {locked : List Nat}
    {x : Pending} (hx : x ∈ selectRows rows limit maxAttempts now locked) :
    ∃ r ∈ rows, r.id = x.id ∧ r.nextAttemptAt.all (· ≤ now) := by
  obtain ⟨r, hr, rfl, hdue⟩ := mem_selectRows hx
  simp only [Row.due, Bool.and_eq_true] at hdue
  exact ⟨r, hr, rfl, hdue.2⟩

theorem layer_spacing : Layer false spacing where
  inv := And.left
  served h := (serve_guard h).2
  kept := kept_of_spacing
  begins := ⟨trivial, trivial⟩
  selects := trivial
  rolls := trivial

theorem spacing_relayOnce (r : Relay) (hs : s.db.session p = none) :
    spacing.Follows p (fun _ _ => True) r.relayOnce s := by
  refine layer_spacing.follows_relayOnce
    (fun _ _ hm (h : Silent p _) => h.kept (kept_of_spacing hm)) (fun _ _ => Silent.congr)
    (fun s start locked hinv hsilent hs hlock _ => ?_) (fun s hinv hs y hy hpass => ?_) hs
  · refine (spacing_publishBatch r _ ⟨[], 0, none⟩ (selectRows_sorted hinv.1.1.rowIds _ _ _ _)
      (fun x => mem_map_of_mem) (hsilent.unsent _) fun t cs hactive => ?_).mono
      fun acc s _ _ => (finish_only acc (fun _ _ => trivial) fun _ => trivial).follows s
    obtain ⟨rfl, -⟩ : start = t ∧ [] = cs := by simpa [hs] using hactive
    refine ⟨hlock, fun id hid => ?_⟩
    obtain ⟨x, hx, rfl⟩ := mem_map.mp hid
    exact selected_due hx
  · -- a pass that has published has a session
    rcases hinv.2.held y hy with hlock | ⟨x, hx, -⟩
    · obtain ⟨x, hx, -⟩ := hinv.1.2.wf.locks _ _ hlock
      simp [hpass, hs] at hx
    · simp [hpass, hs] at hx

theorem spaced_of_run {c : Conc.Config Nat Req Rep State (Bool × Config) Outcome}
    (hc : (passes false).Reachable State.init c) : spacing.Holds (fun _ _ _ _ => True) c := by
  have hinit : spacing.inv State.init :=
    ⟨⟨records_init false, sessions_init⟩, by simp [State.init], by simp [State.init],
      by simp [State.init, Database.changes]⟩
  have hself : (passes false).Restricts (passes false) := ⟨id, id, id, rfl⟩
  refine holds_of_reachable hinit (fun p call s s' _ haccept => ?_)
    (hself.reachable_guard holds_of_run hc)
  simp only [Protocol.guard, passes] at haccept
  split_ifs at haccept with hs
  cases haccept
  exact spacing_relayOnce _ (by simpa using hs)

end GolangBasics.Tasks.Outbox
