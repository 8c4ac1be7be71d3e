import GolangBasics.Tasks.Outbox.Delay
import GolangBasics.Tasks.Outbox.Spacing

/-! How long a rejected row waits: the due time counts from the start of the pass that got
the rejection. -/
namespace GolangBasics.Tasks.Outbox
open Conc Conc.Protocol List Option

def Config.backoff (cfg : Config) : Nat := cfg.withDefaults.rejectBackoff.toNat

def Req.backs (backoff : Nat) : Req → Prop
  | .recordRejection _ _ b => b = backoff
  | _ => True

theorem publishBatch_backs (r : Relay) (batch : List Pending) (acc : Progress) :
    (r.publishBatch batch acc).Only (Req.backs r.cfg.rejectBackoff.toNat) := by
  induction batch generalizing acc with
  | nil => exact trivial
  | cons x batch ih =>
    unfold Relay.publishBatch
    refine Prog.only_request trivial fun cancelled => ?_
    cases cancelled with
    | true => exact trivial
    | false =>
      refine Prog.only_request trivial fun result => ?_
      cases result with
      | none => exact ih _
      | some err =>
        simp only
        split_ifs
        · refine Prog.only_request rfl fun rep => ?_
          cases rep with
          | error uerr => exact trivial
          | ok n => exact ih _
        · refine Prog.only_request trivial fun rep => ?_
          cases rep <;> exact trivial

theorem relayOnce_backs (r : Relay) :
    r.relayOnce.Only (Req.backs r.cfg.rejectBackoff.toNat) := by
  unfold Relay.relayOnce
  split_ifs
  · refine Prog.only_request trivial fun rep => ?_
    cases rep with
    | some err => exact trivial
    | none =>
      refine Prog.Only.bind ?_ fun out => Prog.only_request trivial fun _ => trivial
      unfold Relay.inTx
      refine Prog.only_request trivial fun rep => ?_
      rcases rep with err | leader
      · exact trivial
      cases leader with
      | false => exact trivial
      | true =>
        refine Prog.only_request trivial fun rep => ?_
        cases rep with
        | failed err => exact trivial
        | unreadable err => exact trivial
        | rows batch =>
          simp only
          split_ifs
          · exact trivial
          · exact (publishBatch_backs r batch _).bind fun acc =>
              finish_only acc (fun _ => trivial) trivial
  · exact trivial

variable {p id k t₀ backoff : Nat} {due : Option Nat} {s s' : State}

/-- After a rejection of the row in pass `p`, which began at `t₀` and found `k` rejections:
only `p` can still change the row, and it does so once, to `k + 1` rejections and the given
due time. -/
structure Waits (p id k t₀ : Nat) (due : Option Nat) (s : State) : Prop where
  sent : SentBy s.log p id
  ended : ∀ y ∈ s.log, y.row = id → y.pass ≠ p → s.db.Ended y.pass
  begun : s.db.session p ≠ none
  began : ∀ t cs, s.db.session p = some (.active t cs) → t = t₀
  pending : ¬ s.db.Ended p → ∀ r ∈ s.db.tables, r.id = id → r.rejections = k
  once : rejects (s.db.changes p) id ≤ 1
  staged : ∀ lastError next, .rejection id lastError next ∈ s.db.changes p → due = some next
  rows : ∀ r ∈ s.db.tables, r.id = id →
    r.rejections = k ∨ r.rejections = k + 1 ∧ due.isSome ∧ r.nextAttemptAt = due

variable {cs : List Change}

section

variable {q : Nat} {db' : Database Nat Unit Change (List Row)}

theorem Waits.began_step {t : Nat} (h : Waits p id k t₀ due s) (hstep : s.db.Step apply q db')
    (hactive : db'.session p = some (.active t cs)) : t = t₀ := by
  rcases hstep.began hactive with ⟨cs', hactive⟩ | ⟨hnone, -⟩
  · exact h.began t cs' hactive
  · exact absurd hnone h.begun

theorem Waits.step (h : Waits p id k t₀ due s) (hstep : s.db.Step apply q db')
    (htables : db'.tables = s.db.tables) (honce : rejects (db'.changes p) id ≤ 1)
    (hstaged : ∀ e n, .rejection id e n ∈ db'.changes p → due = some n) :
    Waits p id k t₀ due { s with db := db' } := by
  refine ⟨h.sent, fun y hy hrow hpass => hstep.ended (h.ended y hy hrow hpass),
    hstep.session_ne_none h.begun, fun _ _ => h.began_step hstep, fun hopen => ?_, honce, hstaged,
    ?_⟩
  · have hopen : ¬ s.db.Ended p := fun hended => hopen (hstep.ended hended)
    dsimp only
    rw [htables]
    exact h.pending hopen
  · dsimp only
    rw [htables]
    exact h.rows

theorem Waits.quiet (h : Waits p id k t₀ due s) (hstep : s.db.Step apply q db')
    (htables : db'.tables = s.db.tables)
    (hcount : rejects (db'.changes q) id ≤ rejects (s.db.changes q) id)
    (hmem : ∀ c ∈ db'.changes q, c.rejects id → c ∈ s.db.changes q) :
    Waits p id k t₀ due { s with db := db' } := by
  by_cases hqp : p = q
  · subst hqp
    refine h.step hstep htables (hcount.trans h.once) fun e n hin => ?_
    exact h.staged e n (hmem _ hin (by simp [Change.rejects]))
  · have hsame := Database.changes_congr (hstep.session_of_ne hqp)
    refine h.step hstep htables ?_ ?_
    · rw [hsame]
      exact h.once
    · rw [hsame]
      exact h.staged

theorem Waits.nothing (h : Waits p id k t₀ due s) (hstep : s.db.Step apply q db')
    (htables : db'.tables = s.db.tables) (hnone : db'.changes q = []) :
    Waits p id k t₀ due { s with db := db' } :=
  h.quiet hstep htables (by simp [hnone, rejects]) (by simp [hnone])

theorem Cleared.waits (h : Cleared q s s') (hs : Waits p id k t₀ due s) :
    Waits p id k t₀ due s' := by
  cases h with
  | same => exact hs
  | step h htables _ hnone => exact hs.nothing h htables hnone

theorem Waits.stage {t : Nat} {c : Change} (h : Waits p id k t₀ due s)
    (hq : s.db.session q = some (.active t cs)) (hc : c.rejects id = false) :
    Waits p id k t₀ due (s.stage q t cs c) := by
  refine h.quiet (.write [] c hq (by simp)) rfl ?_ fun d hd hrejects => ?_
  · rw [Database.changes_write, Database.changes_active hq, rejects_append, hc]
    exact le_rfl
  · rcases Database.mem_changes_write hq hd with hd | rfl
    · exact hd
    · simp [hc] at hrejects

/-- Nobody but `p` has decided the fate of the row in an open transaction. -/
theorem Waits.others (h : Waits p id k t₀ due s) (hs : Spaced s.db s.log) (hqp : q ≠ p) :
    ∀ c ∈ s.db.changes q, id ∉ c.settles := by
  intro c hc hsettles
  obtain ⟨y, hy, hpass, hrow⟩ := hs.backed q c hc id hsettles
  have hended := h.ended y hy hrow (hpass.trans_ne hqp)
  rw [hpass] at hended
  simp [Database.changes_of_ended hended] at hc

/-- Another pass commits: the row is as before. -/
theorem Waits.row_of_other {r : Row} (h : Waits p id k t₀ due s) (hs : Spaced s.db s.log)
    (hcs : s.db.changes q = cs) (hqp : q ≠ p)
    (hr : r ∈ Database.applyAll apply cs s.db.tables) (hid : r.id = id) :
    ∃ r₀ ∈ s.db.tables, r₀.id = id ∧ r.rejections = r₀.rejections ∧
      r.nextAttemptAt = r₀.nextAttemptAt := by
  obtain ⟨r₀, h₀, hpend, hcount, hnext⟩ := mem_applyAll_marks hr
  have hzero : rejects cs r.id = 0 := by
    by_contra hne
    obtain ⟨c, hc, hsettles⟩ := exists_settles hne
    exact h.others hs hqp c (hcs ▸ hc) (hid ▸ hsettles)
  refine ⟨r₀, h₀, (congrArg Pending.id hpend).symm.trans hid, by omega, ?_⟩
  rcases hnext with ⟨-, hsame⟩ | ⟨e, n, hmem, -⟩
  · exact hsame
  · exact absurd (hid ▸ mem_singleton_self _) (h.others hs hqp _ (hcs ▸ hmem))

/-- The pass itself commits: the row has one more rejection and the due time, or is as before. -/
theorem Waits.row_of_own {r : Row} (h : Waits p id k t₀ due s) (hcs : s.db.changes p = cs)
    (hopen : ¬ s.db.Ended p) (hr : r ∈ Database.applyAll apply cs s.db.tables) (hid : r.id = id) :
    r.rejections = k ∨ r.rejections = k + 1 ∧ due.isSome ∧ r.nextAttemptAt = due := by
  obtain ⟨r₀, h₀, hpend, hcount, hnext⟩ := mem_applyAll_marks hr
  have hold : r₀.rejections = k :=
    h.pending hopen r₀ h₀ ((congrArg Pending.id hpend).symm.trans hid)
  rw [hid] at hcount hnext
  rcases hnext with ⟨hzero, -⟩ | ⟨e, n, hmem, hnext⟩
  · exact .inl (by omega)
  · have hle : rejects cs id ≤ 1 := hcs ▸ h.once
    have hpos : 0 < rejects cs id := countP_pos_iff.mpr ⟨_, hmem, by simp [Change.rejects]⟩
    rw [h.staged e n (hcs ▸ hmem)]
    exact .inr ⟨by omega, rfl, hnext⟩

theorem Waits.commit {t : Nat} (h : Waits p id k t₀ due s) (hs : Spaced s.db s.log)
    (hq : s.db.session q = some (.active t cs) ∨ s.db.session q = some (.committing cs)) :
    Waits p id k t₀ due { s with db := s.db.commit apply q cs } := by
  have hstep : s.db.Step apply q (s.db.commit apply q cs) := .commit hq
  have hcs : s.db.changes q = cs := Database.changes_of_open hq
  have hended : (s.db.commit apply q cs).Ended q := ⟨.closed, Database.put_session_self, rfl⟩
  refine ⟨h.sent, fun y hy hrow hpass => hstep.ended (h.ended y hy hrow hpass),
    hstep.session_ne_none h.begun, fun _ _ => h.began_step hstep, fun hopen r hr hid => ?_, ?_, ?_,
    fun r hr hid => ?_⟩
  · have hqp : q ≠ p := by
      rintro rfl
      exact hopen hended
    obtain ⟨r₀, h₀, hid₀, hcount, -⟩ := h.row_of_other hs hcs hqp hr hid
    rw [hcount]
    exact h.pending (fun hended' => hopen (hstep.ended hended')) r₀ h₀ hid₀
  · by_cases hqp : p = q
    · subst hqp
      simp [Database.changes_of_ended hended, rejects]
    · dsimp only
      rw [Database.changes_congr (hstep.session_of_ne hqp)]
      exact h.once
  · by_cases hqp : p = q
    · subst hqp
      simp [Database.changes_of_ended hended]
    · dsimp only
      rw [Database.changes_congr (hstep.session_of_ne hqp)]
      exact h.staged
  · by_cases hqp : q = p
    · subst hqp
      refine h.row_of_own hcs ?_ hr hid
      rintro ⟨x, hx, hclosed⟩
      simp [hstep.not_ended hx] at hclosed
    · obtain ⟨r₀, h₀, hid₀, hcount, hsame⟩ := h.row_of_other hs hcs hqp hr hid
      rw [hcount, hsame]
      exact h.rows r₀ h₀ hid₀

theorem Waits.rejection {t next : Nat} {lastError : Bytes} {r : Row}
    (h : Waits p id k t₀ (retryAt t₀ backoff k) s) (hp : s.db.session p = some (.active t cs))
    (hzero : rejects cs id = 0) (hr : r ∈ s.db.view apply p) (hid : r.id = id)
    (hnext : retryAt t backoff r.rejections = some next) :
    Waits p id k t₀ (retryAt t₀ backoff k) (s.stage p t cs (.rejection id lastError next)) := by
  have hopen : ¬ s.db.Ended p := Database.not_ended_of_open hp rfl
  obtain rfl := h.began t cs hp
  have hchanges := Database.changes_active hp
  have hcount : r.rejections = k := by
    rw [Database.view, hchanges] at hr
    obtain ⟨r₀, h₀, hpend, hcount, -⟩ := mem_applyAll_marks hr
    have hold := h.pending hopen r₀ h₀ ((congrArg Pending.id hpend).symm.trans hid)
    rw [hid, hzero] at hcount
    omega
  rw [hcount] at hnext
  refine h.step (.write [] _ hp (by simp)) rfl ?_ fun e n hin => ?_
  · rw [Database.changes_write, rejects_append, hzero]
    simp [Change.rejects]
  · rcases Database.mem_changes_write hp hin with hin | hin
    · exact h.staged e n hin
    · obtain ⟨-, rfl⟩ : e = lastError ∧ n = next := by simpa using hin
      exact hnext

theorem Waits.published (h : Waits p id k t₀ due s) {y : Sent} (hy : y.row ≠ id) :
    Waits p id k t₀ due { s with log := y :: s.log } := by
  refine ⟨h.sent.mono (subset_cons_self _ _), fun z hz hrow hpass => ?_, h.begun, h.began,
    h.pending, h.once, h.staged, h.rows⟩
  rcases mem_cons.mp hz with rfl | hz
  · exact absurd hrow hy
  · exact h.ended z hz hrow hpass

end

def attempts (log : List Sent) (id : Nat) : Nat := log.countP fun y => y.row = id

theorem attempts_cons (log : List Sent) (y : Sent) (id : Nat) :
    attempts (y :: log) id = attempts log id + if y.row = id then 1 else 0 := by
  unfold attempts
  rw [countP_cons]
  simp

theorem Waits.effect {q : Nat} {r : Req} {x : Choice} {rep : Rep r}
    (h : Waits p id k t₀ (retryAt t₀ backoff k) s) (hs : Spaced s.db s.log) (hspaces : spaces q r s)
    (hbacks : q = p → r.backs backoff) (hserve : serve false q r x s = some (rep, s'))
    (hsame : attempts s'.log id = attempts s.log id) :
    Waits p id k t₀ (retryAt t₀ backoff k) s' := by
  obtain ⟨-, heffect⟩ := serve_effect hserve
  cases heffect with
  | skip => exact h
  | abort aborts => exact (cleared_abort q s aborts).waits h
  | close => exact (cleared_rollback q s).waits h
  | start hnone => exact (cleared_start hnone).waits h
  | lock hq hfree =>
    exact h.quiet (.acquire [()] hq (by simp [hfree])) rfl le_rfl fun c hc _ => hc
  | @send i msg result =>
    refine h.published fun hrow => ?_
    have hrow : i = id := hrow
    simp [attempts_cons, hrow] at hsame
  | @rejection i e b t cs hq n =>
    by_cases hid : i = id
    · subst hid
      obtain ⟨⟨y, hy, hpass, hrow⟩, hzero⟩ := hspaces t cs hq
      by_cases hqp : q = p
      · subst hqp
        obtain rfl := hbacks rfl
        rcases recordRejection_cases hserve with ⟨-, aborts, -, hlost, -⟩ |
          ⟨t', cs', hq', ⟨-, -, hskip, -⟩ | ⟨r, hr, hid, next, hnext, -, hstage⟩⟩
        · rw [hlost]
          exact (cleared_abort q s aborts).waits h
        · rw [hskip]
          exact h
        · obtain ⟨rfl, rfl⟩ : t = t' ∧ cs = cs' := by simpa [hq] using hq'
          rw [hstage]
          exact h.rejection hq hzero hr hid hnext
      · have hended := h.ended y hy hrow (hpass.trans_ne hqp)
        rw [hpass] at hended
        exact absurd hended (Database.not_ended_of_open hq rfl)
    · exact h.stage hq (by simp [Change.rejects, hid])
  | failure hq => exact h.stage hq rfl
  | delete hq => exact h.stage hq rfl
  | commit hq => exact h.commit hs (.inl hq)
  | @suspend t cs hq =>
    have hsame := Database.changes_suspend hq
    exact h.quiet (.suspend hq) rfl (by rw [hsame]) fun c hc _ => hsame ▸ hc

theorem Waits.env {e : Env} (h : Waits p id k t₀ due s) (hinv : Inv false s)
    (hs : Spaced s.db s.log) (henv : env false e s = some s') : Waits p id k t₀ due s' := by
  cases env_happens henv with
  | @enqueue x hfresh =>
    obtain ⟨y, hy, -, hrow⟩ := h.sent
    have hne : x.id ≠ id := hrow ▸ (row_ne_of_fresh hinv hfresh y hy).symm
    have hold : ∀ r ∈ s.db.tables ++ [Row.fresh x], r.id = id → r ∈ s.db.tables := by
      intro r hr hid
      rcases mem_append.mp hr with hr | hr
      · exact hr
      · obtain rfl := mem_singleton.mp hr
        exact absurd hid hne
    exact ⟨h.sent, h.ended, h.begun, h.began,
      fun hopen r hr hid => h.pending hopen r (hold r hr hid) hid, h.once, h.staged,
      fun r hr hid => h.rows r (hold r hr hid) hid⟩
  | tick d => exact ⟨h.sent, h.ended, h.begun, h.began, h.pending, h.once, h.staged, h.rows⟩
  | ended hq hx hy => exact (cleared_close hq hx hy).waits h
  | land hq => exact h.commit (t := 0) hs (.inr hq)

variable {c c' : Conc.Config Nat Req Rep State (Bool × Config) Outcome}
  {e : Conc.Event Nat Choice Env (Bool × Config)}

theorem log_next (hc : (passes false).Reachable State.init c)
    (hnext : (passes false).next c e = some c') :
    c'.shared.log = c.shared.log ∨ ∃ y, c'.shared.log = y :: c.shared.log := by
  rcases (holds_of_run hc).next_cases hnext with ⟨p, call, haccept⟩ |
    ⟨p, x, call, r, k, rep, -, -, hserve⟩ | ⟨e', henv⟩
  · simp only [passes] at haccept
    split_ifs at haccept
    exact .inl (by rw [some.inj haccept])
  · obtain ⟨-, heffect⟩ := serve_effect hserve
    generalize c'.shared = s' at heffect ⊢
    cases heffect with
    | abort aborts => exact .inl (quiet_abort p c.shared aborts).log
    | close =>
      unfold State.close
      split <;> exact .inl rfl
    | send result => exact .inr ⟨_, rfl⟩
    | _ => exact .inl rfl
  · left
    have hhappens := env_happens (show env false e' c.shared = some c'.shared from henv)
    generalize c'.shared = s' at hhappens ⊢
    cases hhappens <;> rfl

theorem attempts_le_of_next (hc : (passes false).Reachable State.init c)
    (hnext : (passes false).next c e = some c') (id : Nat) :
    attempts c.shared.log id ≤ attempts c'.shared.log id := by
  rcases log_next hc hnext with hlog | ⟨y, hlog⟩
  · rw [hlog]
  · rw [hlog, attempts_cons]
    exact Nat.le_add_right _ _

theorem attempts_le_of_run {es : List (Conc.Event Nat Choice Env (Bool × Config))}
    (hc : (passes false).Reachable State.init c) (hrun : (passes false).run c es = some c')
    (id : Nat) : attempts c.shared.log id ≤ attempts c'.shared.log id := by
  induction es generalizing c with
  | nil =>
    obtain rfl := some.inj hrun
    exact le_rfl
  | cons e es ih =>
    obtain ⟨c₁, hnext, hrest⟩ := bind_eq_some_iff.mp hrun
    exact (attempts_le_of_next hc hnext id).trans (ih (.step e hc hnext) hrest)

theorem waits_of_next {call : Bool × Config} {prog : Pass Outcome}
    (hc : (passes false).Reachable State.init c) (hp : c.proc p = some (call, prog))
    (h : Waits p id k t₀ (retryAt t₀ call.2.backoff k) c.shared)
    (hnext : (passes false).next c e = some c')
    (hsame : attempts c'.shared.log id = attempts c.shared.log id) :
    Waits p id k t₀ (retryAt t₀ call.2.backoff k) c'.shared := by
  have hholds := spaced_of_run hc
  have hguarded := hnext
  rw [← (holds_of_run hc).next_guard] at hguarded
  rcases hholds.next_cases hguarded with ⟨q, call', haccept⟩ |
    ⟨q, x, call', r, k', rep, hq, hspaces, hserve⟩ | ⟨e', henv⟩
  · simp only [Protocol.guard, passes] at haccept
    split_ifs at haccept
    rw [← some.inj haccept]
    exact h
  · refine h.effect hholds.1.2 hspaces (fun hqp => ?_) (serve_guard hserve).2 hsame
    subst hqp
    obtain ⟨rfl, -⟩ : call' = call ∧ .ask r k' = prog := by simpa [hq] using hp
    exact ((relayOnce_backs (newRelay call'.1 call'.2)).leads (hc.leads hq)).1
  · exact h.env hholds.1.1 hholds.1.2 henv

theorem waits_of_run {call : Bool × Config} {prog : Pass Outcome}
    {es : List (Conc.Event Nat Choice Env (Bool × Config))}
    (hc : (passes false).Reachable State.init c) (hp : c.proc p = some (call, prog))
    (h : Waits p id k t₀ (retryAt t₀ call.2.backoff k) c.shared)
    (hrun : (passes false).run c es = some c')
    (hsame : attempts c'.shared.log id = attempts c.shared.log id) :
    Waits p id k t₀ (retryAt t₀ call.2.backoff k) c'.shared := by
  induction es generalizing c prog with
  | nil =>
    obtain rfl := some.inj hrun
    exact h
  | cons e es ih =>
    obtain ⟨c₁, hnext, hrest⟩ := bind_eq_some_iff.mp hrun
    have hc₁ := hc.step e hnext
    obtain ⟨prog₁, hp₁⟩ := Machine.next_call hnext hp
    have hle := attempts_le_of_next hc hnext id
    have hle₁ := attempts_le_of_run hc₁ hrest id
    exact ih hc₁ hp₁ (waits_of_next hc hp h hnext (by omega)) hrest (by omega)

def sending : Pass Outcome → Option Nat
  | .ask (.send id _) _ => some id
  | _ => none

/-- A pass with this `RejectBackoff` is about to publish the row. -/
def Publishes (c : Conc.Config Nat Req Rep State (Bool × Config) Outcome) (p backoff id : Nat) :
    Prop :=
  (c.proc p).map (fun x => (x.1.2.backoff, sending x.2)) = some (backoff, some id)

theorem Publishes.proc (h : Publishes c p backoff id) :
    ∃ call msg k, c.proc p = some (call, .ask (.send id msg) k) ∧ call.2.backoff = backoff := by
  obtain ⟨⟨call, prog⟩, hp, hx⟩ := map_eq_some_iff.mp h
  obtain ⟨hbackoff, hsending⟩ := Prod.mk.inj hx
  cases prog with
  | ret a => cases hsending
  | ask r k =>
    cases r with
    | send i msg =>
      obtain rfl := some.inj hsending
      exact ⟨call, msg, k, hp, hbackoff⟩
    | _ => cases hsending

/-- Whoever is about to publish a row has the lock, has not published it before, and found it
due. -/
theorem Publishes.allowed (hc : (passes false).Reachable State.init c)
    (h : Publishes c p backoff id) (hlive : c.shared.db.session p ≠ some .crashed) :
    ∃ t cs, c.shared.db.session p = some (.active t cs) ∧ c.shared.db.locks () = some p ∧
      DueAt t c.shared.db.tables id ∧ ¬ SentBy c.shared.log p id := by
  obtain ⟨call, msg, k, hp, -⟩ := h.proc
  have hfollows := holds_of_run hc
  have hspaced := spaced_of_run hc
  have hspaces := (hspaced.2 p call _ hp c.shared .refl hspaced.1).1
  rcases (hfollows.2 p call _ hp c.shared .refl hfollows.1).1 with
    hcrash | ⟨⟨t, cs, hactive⟩, hlock, -⟩
  · exact absurd hcrash hlive
  · exact ⟨t, cs, hactive, hlock, hspaces t cs hactive⟩

theorem waits_sent {t : Nat} {r : Row} (hinv : Inv false s) (hs : Spaced s.db s.log)
    (hactive : s.db.session p = some (.active t cs)) (hlock : s.db.locks () = some p)
    (hnew : ¬ SentBy s.log p id) (hr : r ∈ s.db.tables) (hid : r.id = id) (result : Option Err) :
    Waits p id r.rejections t due { s with log := ⟨p, id, result⟩ :: s.log } := by
  have hunique : ∀ r' ∈ s.db.tables, r'.id = id → r' = r :=
    fun r' hr' hid' => inj_on_of_nodup_map hinv.1.rowIds hr' hr (hid'.trans hid.symm)
  have hzero := rejects_of_unsent hs hnew hactive
  have hchanges := Database.changes_active hactive
  refine ⟨⟨_, mem_cons_self, rfl, rfl⟩, fun y hy hrow hpass => ?_, ?_, ?_, ?_, ?_, ?_, ?_⟩
  · rcases mem_cons.mp hy with rfl | hy
    · exact absurd rfl hpass
    · rcases hs.held y hy with hlock' | hended
      · exact absurd (some.inj (hlock'.symm.trans hlock)) hpass
      · exact hended
  · simp [hactive]
  · intro t' cs' hactive'
    obtain ⟨rfl, -⟩ : t = t' ∧ cs = cs' := by simpa [hactive] using hactive'
    rfl
  · intro _ r' hr' hid'
    rw [hunique r' hr' hid']
  · dsimp only
    rw [hchanges, hzero]
    exact Nat.zero_le _
  · intro lastError next hin
    dsimp only at hin
    rw [hchanges] at hin
    have hnone : (Change.rejection id lastError next).rejects id = false :=
      Bool.eq_false_iff.mpr (countP_eq_zero.mp hzero _ hin)
    simp [Change.rejects] at hnone
  · intro r' hr' hid'
    rw [hunique r' hr' hid']
    exact .inl rfl

/-- The broker rejects a row that has `k` rejections, `elapsed` after the pass that published it
began, in `c₁`. The rejection is recorded, and in `c₂` a pass is about to publish the row
again. -/
structure Retry (backoff k elapsed : Nat) where
  (c₁ c₂ : Conc.Config Nat Req Rep State (Bool × Config) Outcome)
  (p q id backoff' t₀ : Nat)
  (cs : List Change)
  err : Err
  es : List (Conc.Event Nat Choice Env (Bool × Config))
  (r₁ r₂ : Row)
  reachable : (passes false).Reachable State.init c₁
  first : Publishes c₁ p backoff id
  began : c₁.shared.db.session p = some (.active t₀ cs)
  clock : c₁.shared.db.clock = t₀ + elapsed
  run : (passes false).run c₁ (.step p (.sent (some err)) :: es) = some c₂
  once : attempts c₂.shared.log id = attempts c₁.shared.log id + 1
  second : Publishes c₂ q backoff' id
  live : c₂.shared.db.session q ≠ some .crashed
  row₁ : r₁ ∈ c₁.shared.db.tables ∧ r₁.id = id ∧ r₁.rejections = k
  row₂ : r₂ ∈ c₂.shared.db.tables ∧ r₂.id = id ∧ r₂.rejections = k + 1

/-- The row is due the delay after that pass began, and no pass publishes it earlier. -/
theorem Retry.waits {elapsed : Nat} (x : Retry backoff k elapsed) :
    ∃ d, rejectDelay backoff k = some d ∧
      x.c₁.shared.db.clock + d ≤ x.c₂.shared.db.clock + elapsed := by
  obtain ⟨c₁, c₂, p, q, id, backoff', t₀, cs, err, es, r₁, r₂, hc, hp, hactive, hclock, hrun, hsame,
    hq, hlive, ⟨hr₁, hid₁, rfl⟩, ⟨hr₂, hid₂, hcount⟩⟩ := x
  obtain ⟨c₁', hrejected, hrun⟩ := bind_eq_some_iff.mp hrun
  have hc₁' := hc.step _ hrejected
  have hc₂ := hc₁'.run hrun
  obtain ⟨call, msg, k, hproc, rfl⟩ := hp.proc
  have hspaced := (spaced_of_run hc).1
  -- the step is the answer to the publish
  have hserve : ∃ rep, serve false p (.send id msg) (.sent (some err)) c₁.shared =
      some (rep, c₁'.shared) := by
    simp only [Machine.next, hproc] at hrejected
    obtain ⟨⟨rep, s⟩, hserve, rfl⟩ := map_eq_some_iff.mp hrejected
    exact ⟨rep, hserve⟩
  obtain ⟨rep, hserve⟩ := hserve
  have hsent := serve_send hserve
  obtain ⟨t, cs', hactive', hlock, -, hnew⟩ := hp.allowed hc (serve_effect hserve).1
  obtain ⟨rfl, rfl⟩ : t₀ = t ∧ cs = cs' := by simpa [hactive] using hactive'
  obtain ⟨prog, hproc'⟩ := Machine.next_call hrejected hproc
  have hstart : Waits p id r₁.rejections t₀ (retryAt t₀ call.2.backoff r₁.rejections)
      c₁'.shared := by
    rw [hsent]
    exact waits_sent hspaced.1 hspaced.2 hactive hlock hnew hr₁ hid₁ rep
  have hsame' : attempts c₂.shared.log id = attempts c₁'.shared.log id := by
    rw [hsame, hsent, attempts_cons, if_pos rfl]
  have hend := waits_of_run hc₁' hproc' hstart hrun hsame'
  rcases hend.rows r₂ hr₂ hid₂ with hold | ⟨-, hsome, hdue⟩
  · omega
  obtain ⟨d, hd⟩ : ∃ d, rejectDelay call.2.backoff r₁.rejections = some d := by
    simpa [retryAt, isSome_iff_exists] using hsome
  obtain ⟨t, cs', hactive', -, hdueAt, -⟩ := hq.allowed hc₂ hlive
  have hle : t₀ + d ≤ t := by
    have hall := hdueAt r₂ hr₂ hid₂
    simpa [hdue, retryAt, hd] using hall
  have hpast : t ≤ c₂.shared.db.clock := (spaced_of_run hc₂).1.2.past q t cs' hactive'
  exact ⟨d, hd, by dsimp only; omega⟩

end GolangBasics.Tasks.Outbox
