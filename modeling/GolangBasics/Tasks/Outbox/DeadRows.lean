import GolangBasics.Tasks.Outbox.Settling

/-! The rejections column counts the committed passes in which the broker refused the row,
and nothing happens to a row that has reached `MaxAttempts`. -/
namespace GolangBasics.Tasks.Outbox
open Conc Conc.Protocol List Option

variable {cfg : Config} {p : Nat} {s s' : State}

inductive Turn (cfg : Config) (s s' : State) : Prop where
  | same (htables : s'.db.tables = s.db.tables) (hlog : s'.log = s.log)
  | enqueue (x : Pending) (htables : s'.db.tables = s.db.tables ++ [Row.fresh x])
      (hlog : s'.log = s.log) (hfresh : ∀ r ∈ s.db.tables, r.id ≠ x.id)
  | sent (y : Sent) (htables : s'.db.tables = s.db.tables) (hlog : s'.log = y :: s.log)
      (halive : Alive cfg.limit s.db.tables y.row)
  | commit (p : Nat) (cs : List Change)
      (htables : s'.db.tables = Database.applyAll apply cs s.db.tables) (hlog : s'.log = s.log)
      (hcommitted : s'.db.committed = p :: s.db.committed) (hbal : Balanced s.log p cs)
      (halive : ∀ c ∈ cs, ∀ id ∈ c.settles, Alive cfg.limit s.db.tables id)

theorem turn_of_effect {r : Req} (h : Counted cfg.limit s.db s.log)
    (hlive : s.db.session p ≠ some .crashed) (hpre : pre false p r s) (hcounts : counts cfg p r s)
    (heffect : Effect p s r s') : Turn cfg s s' := by
  cases heffect with
  | abort aborts =>
    have hquiet := quiet_abort p s aborts
    exact .same hquiet.tables hquiet.log
  | close =>
    unfold State.close
    split <;> exact .same rfl rfl
  | send result =>
    rcases hpre with hcrash | ⟨⟨t, cs, hp⟩, -⟩
    · exact absurd hcrash hlive
    · exact .sent _ rfl rfl (hcounts t cs hp)
  | @commit t cs hp =>
    refine .commit p cs rfl rfl rfl (hcounts t cs hp) fun c hc => ?_
    exact h.alive p c (by rwa [Database.changes_active hp])
  | _ => exact .same rfl rfl

theorem turn_of_env {e : Env} (hinv : Inv false s) (h : Counted cfg.limit s.db s.log)
    (henv : env false e s = some s') : Turn cfg s s' := by
  cases env_happens henv with
  | enqueue hfresh =>
    refine .enqueue _ rfl rfl fun r hr hid => ?_
    exact hfresh (List.mem_map.mpr ⟨_, hinv.1.origin r hr, hid⟩)
  | tick d => exact .same rfl rfl
  | ended => exact .same rfl rfl
  | @land p cs hp =>
    refine .commit p cs rfl rfl rfl (h.committing p cs hp) fun c hc => ?_
    exact h.alive p c (by rwa [Database.changes_committing hp])

theorem turn_of_steps (h : (accounting cfg).Steps s s') : Turn cfg s s' := by
  cases h with
  | serve hinv hcounts h =>
    obtain ⟨hpre, -, h⟩ := serve_replicas h
    obtain ⟨hlive, heffect⟩ := serve_effect h
    exact turn_of_effect hinv.2 hlive hpre hcounts heffect
  | env hinv h => exact turn_of_env hinv.1 hinv.2 h
  | accept hinv h =>
    obtain ⟨rfl, -⟩ := accept_replicas h
    exact .same rfl rfl

/-- The count of a row changes only by one, and only when a pass commits in which the broker
refused this row. -/
theorem Turn.count (h : Turn cfg s s') (hids : (s.db.tables.map fun r => r.id).Nodup)
    {r r' : Row} (hr : r ∈ s.db.tables) (hr' : r' ∈ s'.db.tables) (hid : r'.id = r.id) :
    r'.rejections = r.rejections ∨ ∃ q, s'.db.committed = q :: s.db.committed ∧
      rejectedBy s.log q r.id ∧ r'.rejections = r.rejections + 1 := by
  have hunique : ∀ r₀ ∈ s.db.tables, r₀.id = r.id → r₀ = r :=
    fun r₀ h₀ => inj_on_of_nodup_map hids h₀ hr
  cases h with
  | same htables =>
    rw [htables] at hr'
    rw [hunique r' hr' hid]
    exact .inl rfl
  | enqueue x htables _ hfresh =>
    rw [htables] at hr'
    rcases mem_append.mp hr' with hr' | hr'
    · rw [hunique r' hr' hid]
      exact .inl rfl
    · obtain rfl := mem_singleton.mp hr'
      exact absurd hid.symm (hfresh r hr)
  | sent y htables =>
    rw [htables] at hr'
    rw [hunique r' hr' hid]
    exact .inl rfl
  | commit q cs htables _ hcommitted hbal =>
    rw [htables] at hr'
    obtain ⟨r₀, h₀, hpend, hcount⟩ := mem_applyAll_rejects hr'
    have hid₀ : r'.id = r₀.id := congrArg Pending.id hpend
    obtain rfl := hunique r₀ h₀ (hid₀.symm.trans hid)
    rw [hbal r'.id, hid] at hcount
    cases hrej : rejectedBy s.log q r₀.id with
    | false =>
      left
      simpa [hrej] using hcount
    | true =>
      right
      exact ⟨q, hcommitted, hrej, by simpa [hrej] using hcount⟩

def Rests (s₀ : State) (r : Row) (s : State) : Prop :=
  (∃ r' ∈ s.db.tables, r'.toPending = r.toPending ∧ r'.rejections = r.rejections) ∧
    ∃ new, s.log = new ++ s₀.log ∧ ∀ y ∈ new, y.row ≠ r.id

theorem Turn.rests {s₀ : State} {r : Row} (h : Turn cfg s s')
    (hids : (s.db.tables.map fun r => r.id).Nodup) (hdead : cfg.limit ≤ r.rejections)
    (hs : Rests s₀ r s) : Rests s₀ r s' := by
  obtain ⟨⟨r', hr', hpend, hcount⟩, new, hnew, hother⟩ := hs
  have hid : r'.id = r.id := congrArg Pending.id hpend
  have hnot : ∀ id, Alive cfg.limit s.db.tables id → id ≠ r.id := by
    intro id halive heq
    have := halive r' hr' (hid.trans heq.symm)
    omega
  cases h with
  | same htables hlog =>
    exact ⟨⟨r', by rwa [htables], hpend, hcount⟩, new, hlog.trans hnew, hother⟩
  | enqueue x htables hlog =>
    refine ⟨⟨r', ?_, hpend, hcount⟩, new, hlog.trans hnew, hother⟩
    rw [htables]
    exact mem_append_left _ hr'
  | sent y htables hlog halive =>
    refine ⟨⟨r', by rwa [htables], hpend, hcount⟩, y :: new, by rw [hlog, hnew]; rfl, ?_⟩
    intro z hz
    rcases mem_cons.mp hz with rfl | hz
    · exact hnot _ halive
    · exact hother z hz
  | commit q cs htables hlog hcommitted hbal halive =>
    refine ⟨?_, new, hlog.trans hnew, hother⟩
    -- the transaction neither deletes the row nor counts a rejection for it
    have huntouched : ∀ c ∈ cs, r'.id ∉ c.settles :=
      fun c hc hsettles => hnot r'.id (halive c hc r'.id hsettles) hid
    have hkept : r'.id ∉ deletes cs := by
      intro hdel
      obtain ⟨c, hc, hsettles⟩ := settles_of_deletes hdel
      exact huntouched c hc hsettles
    have hzero : rejects cs r'.id = 0 := by
      by_contra hne
      obtain ⟨c, hc, hsettles⟩ := exists_settles hne
      exact huntouched c hc hsettles
    obtain ⟨r₁, hr₁, hpend₁⟩ := exists_mem_applyAll hr' hkept
    obtain ⟨r₀, h₀, hpend₀, hcount₁⟩ := mem_applyAll_rejects hr₁
    have hid₁ : r₁.id = r'.id := congrArg Pending.id hpend₁
    obtain rfl : r₀ = r' :=
      inj_on_of_nodup_map hids h₀ hr' ((congrArg Pending.id hpend₀).symm.trans hid₁)
    rw [hid₁, hzero] at hcount₁
    refine ⟨r₁, ?_, hpend₁.trans hpend, hcount₁.trans hcount⟩
    rw [htables]
    exact hr₁

/-- Dead rows take no place in a batch. -/
theorem selectRows_filter {rows : List Row} {maxAttempts : Nat} {f : Row → Bool}
    (hdead : ∀ r ∈ rows, f r = false → maxAttempts ≤ r.rejections) (limit now : Nat)
    (locked : List Nat) :
    selectRows (rows.filter f) limit maxAttempts now locked =
      selectRows rows limit maxAttempts now locked := by
  have hsame : (rows.filter f).filter (fun r => r.due maxAttempts now && r.id ∉ locked) =
      rows.filter fun r => r.due maxAttempts now && r.id ∉ locked := by
    rw [List.filter_filter]
    refine filter_congr fun r hr => ?_
    cases hf : f r with
    | true => exact Bool.and_true _
    | false =>
      have hnot : ¬ r.rejections < maxAttempts := Nat.not_lt.mpr (hdead r hr hf)
      simp [Row.due, hnot]
  unfold selectRows
  rw [hsame]

variable {c c' : Conc.Config Nat Req Rep State (Bool × Config) Outcome}

theorem turn_of_next (hc : (replicas cfg).Reachable State.init c)
    {e : Conc.Event Nat Choice Env (Bool × Config)} (hnext : (replicas cfg).next c e = some c') :
    Turn cfg c.shared c'.shared := by
  have hfollows := holds_of_run ((restricts_replicas cfg).reachable hc)
  rw [← hfollows.next_guard] at hnext
  exact turn_of_steps ((counted_of_run hc).steps hnext)

theorem rests_of_run {s₀ : State} {r : Row} {es : List (Conc.Event Nat Choice Env (Bool × Config))}
    (hc : (replicas cfg).Reachable State.init c) (hdead : cfg.limit ≤ r.rejections)
    (hs : Rests s₀ r c.shared) (hrun : (replicas cfg).run c es = some c') :
    Rests s₀ r c'.shared := by
  induction es generalizing c with
  | nil =>
    obtain rfl := some.inj hrun
    exact hs
  | cons e es ih =>
    obtain ⟨c₁, hnext, hrest⟩ := bind_eq_some_iff.mp hrun
    have hturn := turn_of_next hc hnext
    exact ih (.step e hc hnext) (hturn.rests (counted_of_run hc).1.1.1.rowIds hdead hs) hrest

/-- The rejections of a row are the committed passes in which the broker refused it, at most
`MaxAttempts`; they change in no other way, so that a row that was never refused has none. A
row that has reached `MaxAttempts` stays in the table as it is, is never published again, and
takes no place in a batch. -/
theorem outbox_counts_rejections (hc : (replicas cfg).Reachable State.init c) :
    c.shared.db.committed.Nodup ∧
    (∀ r ∈ c.shared.db.tables,
      r.rejections = tally c.shared.log c.shared.db.committed r.id ∧ r.rejections ≤ cfg.limit ∧
      ((∀ y ∈ c.shared.log, y.row = r.id → ¬ y.rejected) → r.rejections = 0)) ∧
    (∀ e c', (replicas cfg).next c e = some c' → ∀ r ∈ c.shared.db.tables,
      ∀ r' ∈ c'.shared.db.tables, r'.id = r.id → r'.rejections = r.rejections ∨
        ∃ q, c'.shared.db.committed = q :: c.shared.db.committed ∧
          rejectedBy c.shared.log q r.id ∧ r'.rejections = r.rejections + 1) ∧
    (∀ r ∈ c.shared.db.tables, r.rejections = cfg.limit →
      (∀ es c', (replicas cfg).run c es = some c' → Rests c.shared r c'.shared) ∧
      ∀ limit now locked, selectRows c.shared.db.tables limit cfg.limit now locked =
        selectRows (c.shared.db.tables.filter fun r' => r'.id ≠ r.id) limit cfg.limit now
          locked) := by
  obtain ⟨hinv, hcounted⟩ := (counted_of_run hc).1
  have hids := hinv.1.rowIds
  refine ⟨hcounted.once, fun r hr => ?_, fun e c' hnext r hr r' hr' hid => ?_,
    fun r hr hdead => ⟨fun es c' hrun => ?_, fun limit now locked => ?_⟩⟩
  · have hcount := hcounted.counted r hr
    exact ⟨hcount, hcounted.bounded r hr, fun hnever => hcount.trans (tally_eq_zero hnever)⟩
  · exact (turn_of_next hc hnext).count hids hr hr' hid
  · exact rests_of_run hc hdead.ge ⟨⟨r, hr, rfl, rfl⟩, [], rfl, by simp⟩ hrun
  · refine (selectRows_filter (fun r' hr' hout => ?_) limit now locked).symm
    have hid : r'.id = r.id := by simpa using hout
    obtain rfl := inj_on_of_nodup_map hids hr' hr hid
    exact hdead.ge

/-- One row and `MaxAttempts` 1. A pass finds the broker down, the next one gets a rejection
and commits, and the third one finds nothing to do. -/
def refusedOnce : List (Conc.Event Nat Choice Env (Bool × Config)) :=
  let relay : Bool × Config := (true, ⟨"tasks.events", 0, 1, 0⟩)
  let refused : Err := newSendError .rejected 10 (.new [])
  [.env (.enqueue ⟨1, "e1", "t1", .created, [], []⟩),
    .start 0 relay, .step 0 .ok, .step 0 .ok, .step 0 (.rows []), .step 0 (.cancelled false),
    .step 0 (.sent (some (.sentinel .canceled))), .step 0 .ok, .step 0 .ok,
    .start 1 relay, .step 1 .ok, .step 1 .ok, .step 1 (.rows []), .step 1 (.cancelled false),
    .step 1 (.sent (some refused)), .step 1 .ok, .step 1 .ok]

theorem outbox_counts_rejections_refusedOnce :
    ∃ c r, (replicas ⟨"tasks.events", 0, 1, 0⟩).run ⟨State.init, fun _ => none⟩ refusedOnce =
        some c ∧ c.shared.db.committed = [1, 0] ∧ c.shared.db.tables = [r] ∧ r.rejections = 1 ∧
      r.rejections = tally c.shared.log c.shared.db.committed r.id ∧
      ∀ es c', (replicas ⟨"tasks.events", 0, 1, 0⟩).run c es = some c' →
        Rests c.shared r c'.shared := by
  have hend : ((replicas ⟨"tasks.events", 0, 1, 0⟩).run ⟨State.init, fun _ => none⟩
      refusedOnce).map (fun c => (c.shared.db.committed, c.shared.db.tables.map Row.rejections)) =
        some ([1, 0], [1]) := by decide +kernel
  obtain ⟨c, hrun, hend⟩ := map_eq_some_iff.mp hend
  obtain ⟨hcommitted, htables⟩ := Prod.mk.inj hend
  obtain ⟨r, htables, hcount⟩ := map_eq_singleton_iff.mp htables
  have hr : r ∈ c.shared.db.tables := by simp [htables]
  obtain ⟨-, hcounts, -, hdead⟩ := outbox_counts_rejections (Machine.Reachable.init.run hrun)
  exact ⟨c, r, hrun, hcommitted, htables, hcount, (hcounts r hr).1, (hdead r hr hcount).1⟩

end GolangBasics.Tasks.Outbox
