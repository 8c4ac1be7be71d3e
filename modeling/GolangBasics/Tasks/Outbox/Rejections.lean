import GolangBasics.Conc.Restrict
import GolangBasics.Tasks.Outbox.Pass

/-! The rejections column: how it is tied to the passes that committed, for replicas that
share one `MaxAttempts`. -/
namespace GolangBasics.Tasks.Outbox
open Conc Conc.Protocol List

/-- A statement that fails takes its transaction with it. -/
def Choice.atomic : Choice → Bool
  | .fail _ aborts => aborts
  | _ => true

def replicas (cfg : Config) : Machine Nat Req Rep State Choice Env (Bool × Config) Outcome where
  serve p r x s := if x.atomic then serve false p r x s else none
  env := env false
  accept p call s := if call.2.maxAttempts = cfg.maxAttempts then (passes false).accept p call s
    else none
  code := (passes false).code

def Config.limit (cfg : Config) : Nat := cfg.withDefaults.maxAttempts.toNat

theorem Config.limit_pos (cfg : Config) : 0 < cfg.limit := by
  unfold Config.limit Config.withDefaults
  simp only
  split_ifs
  · decide
  · omega

theorem Config.limit_congr {cfg cfg' : Config} (h : cfg'.maxAttempts = cfg.maxAttempts) :
    cfg'.withDefaults.maxAttempts.toNat = cfg.limit := by
  unfold Config.limit Config.withDefaults
  rw [h]

def rejectedBy (log : List Sent) (p id : Nat) : Bool :=
  log.any fun y => y.pass = p && y.row = id && y.rejected

def tally (log : List Sent) (committed : List Nat) (id : Nat) : Nat :=
  committed.countP fun p => rejectedBy log p id

def Change.rejects (id : Nat) : Change → Bool
  | .rejection i _ _ => i = id
  | _ => false

/-- How often the changes count a rejection of the row. -/
def rejects (changes : List Change) (id : Nat) : Nat := changes.countP (Change.rejects id)

def Change.settles : Change → List Nat
  | .rejection id _ _ => [id]
  | .failure _ _ => []
  | .delete ids => ids

variable {id : Nat}

theorem settles_of_rejects {c : Change} (h : c.rejects id) : id ∈ c.settles := by
  cases c <;> simp_all [Change.rejects, Change.settles]

variable {cs : List Change}

theorem settles_of_deletes (h : id ∈ deletes cs) : ∃ c ∈ cs, id ∈ c.settles := by
  obtain ⟨c, hc, hid⟩ := mem_flatMap.mp h
  refine ⟨c, hc, ?_⟩
  cases c <;> simp_all [Change.settles]

theorem rejects_append (cs : List Change) (c : Change) (id : Nat) :
    rejects (cs ++ [c]) id = rejects cs id + (c.rejects id).toNat := by
  unfold rejects
  cases h : c.rejects id <;> simp [h]

variable {rows : List Row}

/-- What a change does to the count and the due time of a row. -/
theorem mem_apply_marks {c : Change} {r : Row} (hr : r ∈ c.apply rows) :
    ∃ r₀ ∈ rows, r.toPending = r₀.toPending ∧
      r.rejections = r₀.rejections + (c.rejects r.id).toNat ∧
      (c.rejects r.id = false ∧ r.nextAttemptAt = r₀.nextAttemptAt ∨
        ∃ lastError next, c = .rejection r.id lastError next ∧ r.nextAttemptAt = some next) := by
  cases c with
  | rejection id lastError next =>
    obtain ⟨r₀, h₀, rfl⟩ := mem_map.mp hr
    refine ⟨r₀, h₀, ?_⟩
    split_ifs with hid
    · simp [Change.rejects, hid]
    · have hne : ¬ id = r₀.id := fun h => hid h.symm
      simp [Change.rejects, hne]
  | failure id lastError =>
    obtain ⟨r₀, h₀, rfl⟩ := mem_map.mp hr
    refine ⟨r₀, h₀, ?_⟩
    split_ifs <;> exact ⟨rfl, rfl, .inl ⟨rfl, rfl⟩⟩
  | delete ids => exact ⟨r, (mem_filter.mp hr).1, rfl, rfl, .inl ⟨rfl, rfl⟩⟩

/-- A commit adds to each row what it counted for it, and leaves the due time alone if it
counted nothing. -/
theorem mem_applyAll_marks {r : Row} (hr : r ∈ Database.applyAll apply cs rows) :
    ∃ r₀ ∈ rows, r.toPending = r₀.toPending ∧ r.rejections = r₀.rejections + rejects cs r.id ∧
      (rejects cs r.id = 0 ∧ r.nextAttemptAt = r₀.nextAttemptAt ∨
        ∃ lastError next, .rejection r.id lastError next ∈ cs ∧ r.nextAttemptAt = some next) := by
  induction cs generalizing rows with
  | nil => exact ⟨r, hr, rfl, rfl, .inl ⟨rfl, rfl⟩⟩
  | cons c cs ih =>
    obtain ⟨r₁, h₁, hp₁, hc₁, hn₁⟩ := ih hr
    obtain ⟨r₀, h₀, hp₀, hc₀, hn₀⟩ := mem_apply_marks h₁
    have hid : r₁.id = r.id := congrArg Pending.id hp₁.symm
    have hcons : rejects (c :: cs) r.id = (c.rejects r.id).toNat + rejects cs r.id := by
      unfold rejects
      cases h : c.rejects r.id <;> simp [h]; omega
    rw [hid] at hc₀ hn₀
    refine ⟨r₀, h₀, hp₁.trans hp₀, by omega, ?_⟩
    rcases hn₁ with ⟨hzero, hsame⟩ | ⟨lastError, next, hmem, hnext⟩
    · rcases hn₀ with ⟨hnot, hsame₀⟩ | ⟨lastError, next, rfl, hnext⟩
      · exact .inl ⟨by simp [hcons, hzero, hnot], hsame.trans hsame₀⟩
      · exact .inr ⟨lastError, next, mem_cons_self, hsame.trans hnext⟩
    · exact .inr ⟨lastError, next, mem_cons_of_mem _ hmem, hnext⟩

theorem mem_applyAll_rejects {r : Row} (hr : r ∈ Database.applyAll apply cs rows) :
    ∃ r₀ ∈ rows, r.toPending = r₀.toPending ∧ r.rejections = r₀.rejections + rejects cs r.id := by
  obtain ⟨r₀, h₀, hpend, hcount, -⟩ := mem_applyAll_marks hr
  exact ⟨r₀, h₀, hpend, hcount⟩

theorem rejectedBy_cons_of_ne {log : List Sent} {p : Nat} {y : Sent} (h : y.pass ≠ p) :
    rejectedBy (y :: log) p id = rejectedBy log p id := by
  simp [rejectedBy, h]

theorem rejectedBy_append {log new : List Sent} {p : Nat} (h : ∀ y ∈ new, y.pass ≠ p) :
    rejectedBy (new ++ log) p id = rejectedBy log p id := by
  have hnew : new.any (fun y => y.pass = p && y.row = id && y.rejected) = false := by
    rw [any_eq_false]
    intro y hy
    simp [h y hy]
  unfold rejectedBy
  rw [any_append, hnew, Bool.false_or]

theorem rejectedBy_eq_false {log : List Sent} {p : Nat} (h : ∀ y ∈ log, y.pass = p → y.row ≠ id) :
    rejectedBy log p id = false := by
  unfold rejectedBy
  rw [any_eq_false]
  intro y hy
  by_cases hp : y.pass = p
  · simp [h y hy hp]
  · simp [hp]

variable {committed : List Nat}

theorem tally_cons_of_not_mem {log : List Sent} {y : Sent} (h : y.pass ∉ committed) :
    tally (y :: log) committed id = tally log committed id := by
  refine countP_congr fun p hp => ?_
  rw [rejectedBy_cons_of_ne fun heq => h (heq ▸ hp)]

theorem tally_cons_committed {log : List Sent} {p : Nat} :
    tally log (p :: committed) id = tally log committed id + (rejectedBy log p id).toNat := by
  unfold tally
  cases h : rejectedBy log p id <;> simp [h]

theorem tally_eq_zero {log : List Sent} (h : ∀ y ∈ log, y.row = id → ¬ y.rejected) :
    tally log committed id = 0 := by
  unfold tally
  rw [countP_eq_zero]
  intro p _ hrejected
  obtain ⟨y, hy, hmatch⟩ := any_eq_true.mp hrejected
  simp only [Bool.and_eq_true, decide_eq_true_eq] at hmatch
  exact h y hy hmatch.1.2 hmatch.2

/-- The transaction counts each rejection its pass got exactly once. -/
def Balanced (log : List Sent) (p : Nat) (cs : List Change) : Prop :=
  ∀ id, rejects cs id = (rejectedBy log p id).toNat

def Alive (limit : Nat) (rows : List Row) (id : Nat) : Prop :=
  ∀ r ∈ rows, r.id = id → r.rejections < limit

/-- The column counts the committed passes that got a rejection, and no transaction touches
a dead row. -/
structure Counted (limit : Nat) (db : Database Nat Unit Change (List Row)) (log : List Sent) :
    Prop where
  counted : ∀ r ∈ db.tables, r.rejections = tally log db.committed r.id
  bounded : ∀ r ∈ db.tables, r.rejections ≤ limit
  once : db.committed.Nodup
  started : ∀ y ∈ log, db.session y.pass ≠ none
  committing : ∀ p cs, db.session p = some (.committing cs) → Balanced log p cs
  alive : ∀ p, ∀ c ∈ db.changes p, ∀ id ∈ c.settles, Alive limit db.tables id

theorem counted_init (limit : Nat) : Counted limit State.init.db [] := by
  constructor <;> simp [State.init, Database.changes]

section

variable {limit p : Nat} {db db' : Database Nat Unit Change (List Row)} {log : List Sent}

/-- A step of a session other than a commit. It may only stage changes of rows that are not
dead, and hands the commit over only when the count is right. -/
theorem counted_step (h : Counted limit db log) (hstep : db.Step apply p db')
    (htables : db'.tables = db.tables) (hcommitted : db'.committed = db.committed)
    (hstaged : ∀ c ∈ db'.changes p, c ∈ db.changes p ∨
      ∀ id ∈ c.settles, Alive limit db.tables id)
    (hcommitting : ∀ cs, db'.session p = some (.committing cs) → Balanced log p cs) :
    Counted limit db' log := by
  refine ⟨?_, ?_, ?_, fun y hy => hstep.session_ne_none (h.started y hy), fun q cs hq => ?_,
    fun q c hc => ?_⟩
  · rw [htables, hcommitted]
    exact h.counted
  · rw [htables]
    exact h.bounded
  · rw [hcommitted]
    exact h.once
  · by_cases hqp : q = p
    · subst hqp
      exact hcommitting cs hq
    · rw [hstep.session_of_ne hqp] at hq
      exact h.committing q cs hq
  · rw [htables]
    by_cases hqp : q = p
    · subst hqp
      rcases hstaged c hc with hold | hnew
      · exact h.alive q c hold
      · exact hnew
    · rw [Database.changes_congr (hstep.session_of_ne hqp)] at hc
      exact h.alive q c hc

theorem rejects_le_one (hbal : Balanced log p cs) (id : Nat) : rejects cs id ≤ 1 := by
  rw [hbal id]
  exact Bool.toNat_le _

theorem exists_settles (h : rejects cs id ≠ 0) : ∃ c ∈ cs, id ∈ c.settles := by
  obtain ⟨c, hc, hrej⟩ := countP_pos_iff.mp (Nat.pos_of_ne_zero h)
  exact ⟨c, hc, settles_of_rejects hrej⟩

/-- A commit of a pass that counted each of its rejections once. -/
theorem counted_commit (h : Counted limit db log) (hs : Sessions db log) {t : Nat}
    (hp : db.session p = some (.active t cs) ∨ db.session p = some (.committing cs))
    (hbal : Balanced log p cs) : Counted limit (db.commit apply p cs) log := by
  have hstep : db.Step apply p (db.commit apply p cs) := .commit hp
  have hcs : db.changes p = cs := Database.changes_of_open hp
  refine ⟨fun r hr => ?_, fun r hr => ?_,
    nodup_cons.mpr ⟨hstep.not_committed hs.wf, h.once⟩,
    fun y hy => hstep.session_ne_none (h.started y hy),
    fun q ds hq => h.committing q ds (Database.session_of_commit hq rfl).2, fun q c hc => ?_⟩
  · obtain ⟨r₀, h₀, hpend, hcount⟩ := mem_applyAll_rejects hr
    have hid : r.id = r₀.id := congrArg Pending.id hpend
    have hold := h.counted r₀ h₀
    have htally : tally log (p :: db.committed) r.id =
        tally log db.committed r.id + (rejectedBy log p r.id).toNat := tally_cons_committed
    rw [← hid] at hold
    rw [hcount, hold, hbal r.id]
    exact htally.symm
  · obtain ⟨r₀, h₀, hpend, hcount⟩ := mem_applyAll_rejects hr
    have hid : r.id = r₀.id := congrArg Pending.id hpend
    have hone := rejects_le_one hbal r.id
    by_cases hzero : rejects cs r.id = 0
    · have := h.bounded r₀ h₀
      omega
    · obtain ⟨c, hc, hsettles⟩ := exists_settles hzero
      have := h.alive p c (hcs ▸ hc) r.id hsettles r₀ h₀ hid.symm
      omega
  · obtain ⟨hqp, hold⟩ := Database.mem_changes_commit hc
    -- the lock is with `q`, so `p` has staged nothing
    have hnil : cs = [] := by
      by_contra hne
      have hlockp := hs.staged p (by rwa [hcs])
      have hlockq := hs.staged q (ne_nil_of_mem hold)
      exact hqp (Option.some.inj (hlockq.symm.trans hlockp))
    subst hnil
    exact h.alive q c hold

theorem counted_sent (h : Counted limit db log) (hs : Sessions db log) {t : Nat}
    (hp : db.session p = some (.active t cs)) (id : Nat) (result : Option Err) :
    Counted limit db (⟨p, id, result⟩ :: log) := by
  have hnot : p ∉ db.committed := by
    intro hin
    have hclosed := hs.wf.committed p hin
    simp [hp] at hclosed
  refine ⟨fun r hr => ?_, h.bounded, h.once, fun y hy => ?_, fun q ds hq => ?_, h.alive⟩
  · rw [tally_cons_of_not_mem hnot]
    exact h.counted r hr
  · rcases mem_cons.mp hy with rfl | hy
    · simp [hp]
    · exact h.started y hy
  · have hne : p ≠ q := by
      rintro rfl
      simp [hp] at hq
    intro id'
    rw [rejectedBy_cons_of_ne hne]
    exact h.committing q ds hq id'

theorem counted_enqueue (h : Counted limit db log) {x : Pending} (hlimit : 0 < limit)
    (hx : ∀ y ∈ log, y.row ≠ x.id) :
    Counted limit { db with tables := db.tables ++ [Row.fresh x] } log := by
  refine ⟨fun r hr => ?_, fun r hr => ?_, h.once, h.started, h.committing,
    fun p c hc id hid r hr hrow => ?_⟩
  · rcases mem_append.mp hr with hr | hr
    · exact h.counted r hr
    · obtain rfl := mem_singleton.mp hr
      exact (tally_eq_zero fun y hy hrow => absurd hrow (hx y hy)).symm
  · rcases mem_append.mp hr with hr | hr
    · exact h.bounded r hr
    · obtain rfl := mem_singleton.mp hr
      exact Nat.zero_le _
  · rcases mem_append.mp hr with hr | hr
    · exact h.alive p c hc id hid r hr hrow
    · obtain rfl := mem_singleton.mp hr
      exact hlimit

end

end GolangBasics.Tasks.Outbox
