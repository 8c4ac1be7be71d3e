import GolangBasics.Tasks.Outbox.Relay

/-! The invariant of the outbox. One half relates the table to the broker's log, the
other half relates the sessions of the passes to it. -/
namespace GolangBasics.Tasks.Outbox
open Conc List

def Acked (log : List Sent) (id : Nat) : Prop := ∃ y ∈ log, y.row = id ∧ y.acked

def AckedBy (log : List Sent) (p id : Nat) : Prop := ∃ y ∈ log, y.pass = p ∧ y.row = id ∧ y.acked

def Rejected (log : List Sent) (id : Nat) : Prop := ∃ y ∈ log, y.row = id ∧ y.rejected

def Settled (log : List Sent) (id : Nat) : Prop := Acked log id ∨ Rejected log id

variable {log' : List Sent} {id : Nat}

theorem Acked.mono {log : List Sent} (h : Acked log id) (hsub : log ⊆ log') : Acked log' id :=
  h.imp fun _ => And.imp_left (hsub ·)

theorem AckedBy.mono {log : List Sent} {p : Nat} (h : AckedBy log p id) (hsub : log ⊆ log') :
    AckedBy log' p id :=
  h.imp fun _ => And.imp_left (hsub ·)

theorem Rejected.mono {log : List Sent} (h : Rejected log id) (hsub : log ⊆ log') :
    Rejected log' id :=
  h.imp fun _ => And.imp_left (hsub ·)

theorem Settled.mono {log : List Sent} (h : Settled log id) (hsub : log ⊆ log') :
    Settled log' id :=
  h.imp (·.mono hsub) (·.mono hsub)

def deletes (changes : List Change) : List Nat :=
  changes.flatMap fun
    | .delete ids => ids
    | _ => []

/-- The pass deletes only rows it got an acknowledgement for, and counts only rejections
of the broker. -/
def Justified (log : List Sent) (p : Nat) : Change → Prop
  | .rejection id _ _ => Rejected log id
  | .failure _ _ => True
  | .delete ids => ∀ id ∈ ids, AckedBy log p id

theorem Justified.mono {log : List Sent} {p : Nat} {c : Change} (h : Justified log p c)
    (hsub : log ⊆ log') : Justified log' p c := by
  cases c with
  | rejection id _ _ => exact Rejected.mono h hsub
  | failure _ _ => trivial
  | delete ids => exact fun id hid => (h id hid).mono hsub

abbrev apply := Change.apply

/-- The change keeps the row's event, and its count unless it rejects the row. -/
theorem mem_apply {c : Change} {rows : List Row} {r : Row} (hr : r ∈ c.apply rows) :
    ∃ r₀ ∈ rows, r.toPending = r₀.toPending ∧ r.id ∉ deletes [c] ∧
      ((∃ e n, c = .rejection r.id e n) ∨
        r.rejections = r₀.rejections ∧ r.nextAttemptAt = r₀.nextAttemptAt) := by
  cases c with
  | rejection id lastError next =>
    obtain ⟨r₀, h₀, rfl⟩ := mem_map.mp hr
    refine ⟨r₀, h₀, ?_⟩
    split_ifs with hid
    · exact ⟨rfl, by simp [deletes], .inl ⟨lastError, next, by rw [← hid]⟩⟩
    · exact ⟨rfl, by simp [deletes], .inr ⟨rfl, rfl⟩⟩
  | failure id lastError =>
    obtain ⟨r₀, h₀, rfl⟩ := mem_map.mp hr
    refine ⟨r₀, h₀, ?_⟩
    split_ifs <;> exact ⟨rfl, by simp [deletes], .inr ⟨rfl, rfl⟩⟩
  | delete ids =>
    obtain ⟨h₀, hid⟩ := mem_filter.mp hr
    exact ⟨r, h₀, rfl, by simpa [deletes] using hid, .inr ⟨rfl, rfl⟩⟩

theorem exists_mem_apply {c : Change} {rows : List Row} {r₀ : Row} (h₀ : r₀ ∈ rows)
    (hid : r₀.id ∉ deletes [c]) : ∃ r ∈ c.apply rows, r.toPending = r₀.toPending := by
  cases c with
  | rejection id lastError next =>
    refine ⟨_, mem_map_of_mem h₀, ?_⟩
    split_ifs <;> rfl
  | failure id lastError =>
    refine ⟨_, mem_map_of_mem h₀, ?_⟩
    split_ifs <;> rfl
  | delete ids =>
    have hid : r₀.id ∉ ids := by simpa [deletes] using hid
    exact ⟨r₀, mem_filter.mpr ⟨h₀, by simpa using hid⟩, rfl⟩

theorem ids_apply_sublist (c : Change) (rows : List Row) :
    ((c.apply rows).map fun r => r.id).Sublist (rows.map fun r => r.id) := by
  cases c with
  | rejection id lastError next | failure id lastError =>
    rw [Change.apply, map_map, map_congr_left (g := fun r : Row => r.id)]
    intro r _
    rw [Function.comp_apply]
    split_ifs <;> rfl
  | delete ids => exact filter_sublist.map _

theorem deletes_cons (c : Change) (cs : List Change) :
    deletes (c :: cs) = deletes [c] ++ deletes cs := by
  simp [deletes]

theorem deletes_append (cs : List Change) (c : Change) :
    deletes (cs ++ [c]) = deletes cs ++ deletes [c] := by
  simp [deletes]

variable {cs : List Change}

theorem mem_applyAll {rows : List Row} {r : Row} (hr : r ∈ Database.applyAll apply cs rows) :
    ∃ r₀ ∈ rows, r.toPending = r₀.toPending ∧ r.id ∉ deletes cs ∧
      ((∃ e n, .rejection r.id e n ∈ cs) ∨
        r.rejections = r₀.rejections ∧ r.nextAttemptAt = r₀.nextAttemptAt) := by
  induction cs generalizing rows with
  | nil => exact ⟨r, hr, rfl, by simp [deletes], .inr ⟨rfl, rfl⟩⟩
  | cons c cs ih =>
    obtain ⟨r₁, h₁, hp₁, hd₁, hc₁⟩ := ih hr
    obtain ⟨r₀, h₀, hp₀, hd₀, hc₀⟩ := mem_apply h₁
    have hid : r.id = r₁.id := congrArg Pending.id hp₁
    rw [← hid] at hd₀ hc₀
    refine ⟨r₀, h₀, hp₁.trans hp₀, ?_, ?_⟩
    · rw [deletes_cons]
      exact fun h => (mem_append.mp h).elim hd₀ hd₁
    · rcases hc₁ with ⟨e, n, h⟩ | ⟨hr₁, hn₁⟩
      · exact .inl ⟨e, n, mem_cons_of_mem _ h⟩
      · rcases hc₀ with ⟨e, n, rfl⟩ | ⟨hr₀, hn₀⟩
        · exact .inl ⟨e, n, mem_cons_self⟩
        · exact .inr ⟨hr₁.trans hr₀, hn₁.trans hn₀⟩

theorem exists_mem_applyAll {rows : List Row} {r₀ : Row} (h₀ : r₀ ∈ rows) (hid : r₀.id ∉ deletes cs)
    :
    ∃ r ∈ Database.applyAll apply cs rows, r.toPending = r₀.toPending := by
  induction cs generalizing rows r₀ with
  | nil => exact ⟨r₀, h₀, rfl⟩
  | cons c cs ih =>
    rw [deletes_cons] at hid
    obtain ⟨r₁, h₁, hp₁⟩ := exists_mem_apply h₀ fun h => hid (mem_append_left _ h)
    have hid₁ : r₁.id = r₀.id := congrArg Pending.id hp₁
    obtain ⟨r, hr, hp⟩ := ih h₁ (by rw [hid₁]; exact fun h => hid (mem_append_right _ h))
    exact ⟨r, hr, hp.trans hp₁⟩

theorem ids_applyAll_sublist (cs : List Change) (rows : List Row) :
    ((Database.applyAll apply cs rows).map fun r => r.id).Sublist (rows.map fun r => r.id) := by
  induction cs generalizing rows with
  | nil => exact List.Sublist.refl _
  | cons c cs ih => exact (ih _).trans (ids_apply_sublist c rows)

/-- The table and the broker's log: no committed row is lost, and in an orderly world a row
is acknowledged only after all earlier rows of its task are settled. -/
structure Records (orderly : Bool) (rows : List Row) (log : List Sent)
    (enqueued : List Pending) : Prop where
  ids : (enqueued.map Pending.id).Nodup
  rowIds : (rows.map fun r => r.id).Nodup
  origin : ∀ r ∈ rows, r.toPending ∈ enqueued
  kept : ∀ x ∈ enqueued, (∃ r ∈ rows, r.toPending = x) ∨ Acked log x.id
  sent : ∀ y ∈ log, ∃ x ∈ enqueued, x.id = y.row
  marked : ∀ r ∈ rows, r.rejections ≠ 0 ∨ r.nextAttemptAt ≠ none → Rejected log r.id
  visible : orderly → enqueued.Pairwise fun x y => x.aggregateID = y.aggregateID → y.id < x.id
  order : orderly → ∀ post y pre, log = post ++ y :: pre → y.acked → ∀ a ∈ enqueued,
    ∀ b ∈ enqueued, b.id = y.row → a.aggregateID = b.aggregateID → a.id < b.id → Settled pre a.id

/-- The passes: what they have staged, and what became of those that got an
acknowledgement. -/
structure Sessions (db : Database Nat Unit Change (List Row)) (log : List Sent) : Prop where
  wf : db.Wf
  staged : ∀ p, db.changes p ≠ [] → db.locks () = some p
  justified : ∀ p, ∀ c ∈ db.changes p, Justified log p c
  committing : ∀ p cs, db.session p = some (.committing cs) → ∀ id, AckedBy log p id →
    id ∈ deletes cs
  gone : ∀ y ∈ log, y.acked → y.pass ∈ db.committed → ∀ r ∈ db.tables, r.id ≠ y.row
  holder : ∀ y ∈ log, y.acked → y.pass ∉ db.committed →
    db.locks () = some y.pass ∨ db.Ended y.pass
  once : log.Pairwise fun later earlier => later.acked → earlier.acked →
    later.row = earlier.row →
      earlier.pass ≠ later.pass ∧ earlier.pass ∉ db.committed ∧ db.Ended earlier.pass

theorem records_init (orderly : Bool) : Records orderly [] [] [] := by
  constructor <;> simp

theorem sessions_init : Sessions State.init.db [] := by
  constructor
  · constructor <;> simp [State.init]
  all_goals simp [State.init, Database.changes]

variable {db db' : Database Nat Unit Change (List Row)} {log : List Sent} {p : Nat}

/-- A step of a session. What it stages must be justified, and it gives up the decision about
its commit only when all it acknowledged is deleted. -/
theorem sessions_of_step (h : Sessions db log) (hstep : db.Step apply p db')
    (hgone : ∀ y ∈ log, y.acked → y.pass ∈ db'.committed → ∀ r ∈ db'.tables, r.id ≠ y.row)
    (hcommitted : db.committed ⊆ db'.committed)
    (hended : ∀ q, db.Ended q → q ∉ db.committed → q ∉ db'.committed)
    (hstaged : ∀ c ∈ db'.changes p, c ∈ db.changes p ∨ db.locks () = some p ∧ Justified log p c)
    (hcommitting : ∀ cs, db'.session p = some (.committing cs) → ∀ id, AckedBy log p id →
      id ∈ deletes cs) : Sessions db' log := by
  have hchanges : ∀ q, q ≠ p → db'.changes q = db.changes q :=
    fun q hq => Database.changes_congr (hstep.session_of_ne hq)
  refine ⟨hstep.wf h.wf, fun q hne => ?_, fun q c hc => ?_, fun q cs hq id hid => ?_, hgone,
    fun y hy ha hc => ?_, h.once.imp fun hpair h₁ h₂ h₃ => ?_⟩
  · by_cases hq : q = p
    · subst hq
      obtain ⟨c, hc⟩ := exists_mem_of_ne_nil _ hne
      have hlock : db.locks () = some q := by
        rcases hstaged c hc with hold | hnew
        · exact h.staged q (ne_nil_of_mem hold)
        · exact hnew.1
      rcases hstep.locks_self hlock with hl | hended
      · exact hl
      · exact absurd (Database.changes_of_ended hended) hne
    · rw [hstep.locks_of_ne hq]
      rw [hchanges q hq] at hne
      exact h.staged q hne
  · by_cases hq : q = p
    · subst hq
      rcases hstaged c hc with hold | hnew
      · exact h.justified q c hold
      · exact hnew.2
    · rw [hchanges q hq] at hc
      exact h.justified q c hc
  · by_cases hqp : q = p
    · subst hqp
      exact hcommitting cs hq id hid
    · rw [hstep.session_of_ne hqp] at hq
      exact h.committing q cs hq id hid
  · rcases h.holder y hy ha fun hin => hc (hcommitted hin) with hl | hended
    · by_cases hq : y.pass = p
      · rw [hq] at hl ⊢
        exact hstep.locks_self hl
      · rw [hstep.locks_of_ne hq]
        exact .inl hl
    · exact .inr (hstep.ended hended)
  · obtain ⟨hother, hc, hover⟩ := hpair h₁ h₂ h₃
    exact ⟨hother, hended _ hover hc, hstep.ended hover⟩

theorem sessions_step (h : Sessions db log) (hstep : db.Step apply p db')
    (htables : db'.tables = db.tables) (hcommitted : db'.committed = db.committed)
    (hstaged : ∀ c ∈ db'.changes p, c ∈ db.changes p ∨ db.locks () = some p ∧ Justified log p c)
    (hcommitting : ∀ cs, db'.session p = some (.committing cs) → ∀ id, AckedBy log p id →
      id ∈ deletes cs) : Sessions db' log := by
  refine sessions_of_step h hstep ?_ ?_ ?_ hstaged hcommitting <;> rw [hcommitted]
  · rw [htables]
    exact h.gone
  · exact List.Subset.refl _
  · exact fun _ _ hc => hc

/-- A commit of a pass that deletes everything it got an acknowledgement for. -/
theorem sessions_commit (h : Sessions db log) {t : Nat}
    (hp : db.session p = some (.active t cs) ∨ db.session p = some (.committing cs))
    (hall : ∀ id, AckedBy log p id → id ∈ deletes cs) : Sessions (db.commit apply p cs) log := by
  have hstep : db.Step apply p (db.commit apply p cs) := .commit hp
  have hself : (db.commit apply p cs).session p = some .closed := Database.put_session_self
  refine sessions_of_step h hstep (fun y hy ha hc r hr => ?_) (subset_cons_self _ _)
    (fun q hended hc hin => ?_) (fun c hc => ?_) fun ds hq => ?_
  · obtain ⟨r₀, h₀, hpend, hdel, -⟩ := mem_applyAll hr
    rcases mem_cons.mp hc with hc | hc
    · intro hid
      rw [hid] at hdel
      exact hdel (hall y.row ⟨y, hy, hc, rfl, ha⟩)
    · rw [congrArg Pending.id hpend]
      exact h.gone y hy ha hc r₀ h₀
  · rcases mem_cons.mp hin with rfl | hin
    · obtain ⟨x, hx, hopen⟩ := hended
      simp [hstep.not_ended hx] at hopen
    · exact hc hin
  · simp [Database.changes_of_ended ⟨.closed, hself, rfl⟩] at hc
  · cases hself.symm.trans hq

theorem sessions_sent (h : Sessions db log) {t : Nat} (hp : db.session p = some (.active t cs))
    (hlock : db.locks () = some p) (hrow : ∃ r ∈ db.tables, r.id = id) (hnew : ¬ AckedBy log p id)
    (result : Option Err) : Sessions db (⟨p, id, result⟩ :: log) := by
  have hsub : log ⊆ ⟨p, id, result⟩ :: log := subset_cons_self _ _
  have hopen : ¬ db.Ended p := Database.not_ended_of_open hp rfl
  have hnot : p ∉ db.committed := by
    intro hc
    exact hopen ⟨.closed, h.wf.committed p hc, rfl⟩
  refine ⟨h.wf, h.staged, fun q c hc => (h.justified q c hc).mono hsub, fun q ds hq id' hid => ?_,
    fun y hy ha hc => ?_, fun y hy ha hc => ?_, pairwise_cons.mpr ⟨fun y hy h₁ h₂ h₃ => ?_, h.once⟩⟩
  · obtain ⟨y, hy, hpass, hrest⟩ := hid
    rcases mem_cons.mp hy with rfl | hy
    · obtain rfl : p = q := hpass
      simp [hp] at hq
    · exact h.committing q ds hq id' ⟨y, hy, hpass, hrest⟩
  · rcases mem_cons.mp hy with rfl | hy
    · exact absurd hc hnot
    · exact h.gone y hy ha hc
  · rcases mem_cons.mp hy with rfl | hy
    · exact .inl hlock
    · exact h.holder y hy ha hc
  · obtain ⟨r, hr, rfl⟩ := hrow
    have hcommitted : y.pass ∉ db.committed := fun hc => h.gone y hy h₂ hc r hr h₃
    have hother : y.pass ≠ p := fun heq => hnew ⟨y, hy, heq, h₃.symm, h₂⟩
    refine ⟨hother, hcommitted, ?_⟩
    rcases h.holder y hy h₂ hcommitted with hl | hended
    · exact absurd (Option.some.inj (hlock.symm.trans hl)).symm hother
    · exact hended

theorem sessions_enqueue (h : Sessions db log) {x : Pending} (hx : ∀ y ∈ log, y.row ≠ x.id) :
    Sessions { db with tables := db.tables ++ [Row.fresh x] } log := by
  refine ⟨⟨h.wf.locks, h.wf.committed⟩, h.staged, h.justified, h.committing,
    fun y hy ha hc r hr => ?_, h.holder, h.once⟩
  rcases mem_append.mp hr with hr | hr
  · exact h.gone y hy ha hc r hr
  · obtain rfl := mem_singleton.mp hr
    exact (hx y hy).symm

theorem sessions_tick (h : Sessions db log) (clock : Nat) : Sessions { db with clock } log :=
  ⟨⟨h.wf.locks, h.wf.committed⟩, h.staged, h.justified, h.committing, h.gone, h.holder, h.once⟩

variable {orderly : Bool} {rows : List Row} {enqueued : List Pending}

theorem records_commit (h : Records orderly rows log enqueued) (hcs : ∀ c ∈ cs, Justified log p c) :
    Records orderly (Database.applyAll apply cs rows) log enqueued := by
  refine ⟨h.ids, h.rowIds.sublist (ids_applyAll_sublist cs rows), fun r hr => ?_, fun x hx => ?_,
    h.sent, fun r hr hmark => ?_, h.visible, h.order⟩
  · obtain ⟨r₀, h₀, hpend, -⟩ := mem_applyAll hr
    rw [hpend]
    exact h.origin r₀ h₀
  · rcases h.kept x hx with ⟨r, hr, rfl⟩ | hacked
    · by_cases hdel : r.id ∈ deletes cs
      · right
        obtain ⟨c, hc, hid⟩ := mem_flatMap.mp hdel
        cases c with
        | delete ids =>
          obtain ⟨y, hy, -, hrow, ha⟩ := hcs _ hc r.id hid
          exact ⟨y, hy, hrow, ha⟩
        | _ => simp at hid
      · exact .inl (exists_mem_applyAll hr hdel)
    · exact .inr hacked
  · obtain ⟨r₀, h₀, hpend, -, hcount⟩ := mem_applyAll hr
    rcases hcount with ⟨e, n, hin⟩ | ⟨hr₀, hn₀⟩
    · exact hcs _ hin
    · rw [congrArg Pending.id hpend]
      rw [hr₀, hn₀] at hmark
      exact h.marked r₀ h₀ hmark

theorem records_sent (h : Records orderly rows log enqueued) (hrow : ∃ r ∈ rows, r.id = id)
    (result : Option Err)
    (hord : orderly → ∀ a ∈ enqueued, ∀ b ∈ enqueued, b.id = id → a.aggregateID = b.aggregateID →
      a.id < b.id → Settled log a.id) : Records orderly rows (⟨p, id, result⟩ :: log) enqueued := by
  have hsub : log ⊆ ⟨p, id, result⟩ :: log := subset_cons_self _ _
  refine ⟨h.ids, h.rowIds, h.origin, fun x hx => (h.kept x hx).imp_right fun ha => ha.mono hsub,
    fun y hy => ?_, fun r hr hmark => (h.marked r hr hmark).mono hsub, h.visible,
    fun ho post y pre hlog hy => ?_⟩
  · rcases mem_cons.mp hy with rfl | hy
    · obtain ⟨r, hr, rfl⟩ := hrow
      exact ⟨r.toPending, h.origin r hr, rfl⟩
    · exact h.sent y hy
  · cases post with
    | nil =>
      obtain ⟨rfl, rfl⟩ := List.cons.inj hlog
      exact hord ho
    | cons z post => exact h.order ho post y pre (List.cons.inj hlog).2 hy

theorem records_enqueue (h : Records orderly rows log enqueued) {x : Pending}
    (hfresh : x.id ∉ enqueued.map Pending.id)
    (hvis : orderly → ∀ y ∈ enqueued, y.aggregateID = x.aggregateID → ¬ x.id < y.id) :
    Records orderly (rows ++ [Row.fresh x]) log (x :: enqueued) := by
  have hne : ∀ y ∈ enqueued, y.id ≠ x.id := fun y hy heq =>
    hfresh (mem_map.mpr ⟨y, hy, heq⟩)
  refine ⟨nodup_cons.mpr ⟨hfresh, h.ids⟩, ?_, fun r hr => ?_, fun y hy => ?_, fun y hy => ?_,
    fun r hr hmark => ?_, fun ho => pairwise_cons.mpr ⟨fun y hy htask => ?_, h.visible ho⟩,
    fun ho post y pre hlog hy a ha b hb hbid htask hlt => ?_⟩
  · rw [map_append]
    refine nodup_append.mpr ⟨h.rowIds, by simp, fun id hid id' hid' => ?_⟩
    obtain ⟨r, hr, rfl⟩ := mem_map.mp hid
    obtain rfl : id' = x.id := by simpa [Row.fresh] using hid'
    exact hne _ (h.origin r hr)
  · rcases mem_append.mp hr with hr | hr
    · exact mem_cons_of_mem _ (h.origin r hr)
    · obtain rfl := mem_singleton.mp hr
      exact mem_cons_self
  · rcases mem_cons.mp hy with rfl | hy
    · exact .inl ⟨Row.fresh y, by simp, rfl⟩
    · rcases h.kept y hy with ⟨r, hr, hpend⟩ | hacked
      · exact .inl ⟨r, mem_append_left _ hr, hpend⟩
      · exact .inr hacked
  · obtain ⟨z, hz, hid⟩ := h.sent y hy
    exact ⟨z, mem_cons_of_mem _ hz, hid⟩
  · rcases mem_append.mp hr with hr | hr
    · exact h.marked r hr hmark
    · obtain rfl := mem_singleton.mp hr
      simp [Row.fresh] at hmark
  · have := hvis ho y hy htask.symm
    have := hne y hy
    omega
  · have hin : y ∈ log := by simp [hlog]
    obtain ⟨z, hz, hzid⟩ := h.sent y hin
    -- the acknowledged row is an old one, and a new row of its task has a larger id
    rcases mem_cons.mp hb with rfl | hb'
    · exact absurd (hzid.trans hbid.symm) (hne z hz)
    · rcases mem_cons.mp ha with rfl | ha'
      · exact absurd hlt (hvis ho b hb' htask.symm)
      · exact h.order ho post y pre hlog hy a ha' b hb' hbid htask hlt

end GolangBasics.Tasks.Outbox
