import GolangBasics.Tasks.Cache.Protocol

/-! The handlers keep to the protocol: a writer that reports success has written its
tombstone, and a read answers with a row that is fresh for it, unless the load it joined had
read an older one before. -/
namespace GolangBasics.Tasks.Cache
open Conc Relation List Option
open Protocol (Stable stable_follows follows_ret follows_ask follows_bind)

variable {cfg : Config} {s s' : State} {q : Nat}

/-- Each change of `q` has its tombstone, and no commit of `q` is on its way. -/
def Settled (q : Nat) (s : State) : Prop :=
  (∀ w ∈ s.cached.writers, w.proc = q → w.expires ≠ none) ∧ ∀ x ∈ s.strays, x.1 ≠ q

/-- The row `t` is fresh for the read, or it is the one that its load had read before. -/
def Notes.Answered (n : Notes) (t : Task) : Prop :=
  n.join = .none ∧ n.Fresh t ∨ n.Joined (some t)

def Returned (q : Nat) (call : Call) (res : Result) (s : State) : Prop :=
  res.err = none → Settled q s ∧ ∀ replica, call = .get replica → (s.notes q).Answered res.task

theorem stable_notes (A : Notes → Prop) : (protocol cfg).Stable q fun s => A (s.notes q) := by
  intro s s' hm h
  rw [(kept_of_moves hm).notes]
  exact h

theorem stable_fill (v : Task) :
    (protocol cfg).Stable q fun s => ⟨q, v, false⟩ ∈ s.cached.fills :=
  fun _ _ hm h => (kept_of_moves hm).fills v h

theorem stable_strays : (protocol cfg).Stable q fun s => ∀ x ∈ s.strays, x.1 ≠ q :=
  fun _ _ hm h x hx hq => h x ((kept_of_moves hm).strays x hx hq) hq

theorem stable_settled : (protocol cfg).Stable q (Settled q) := by
  intro s s' hm h
  refine ⟨fun w hw hq => ?_, stable_strays hm h.2⟩
  obtain ⟨w₀, hw₀, hq₀, hexp⟩ := (kept_of_moves hm).writers h.2 w hw hq
  exact hexp (h.1 w₀ hw₀ hq₀)

theorem stable_runs (r : Nat) (l : Option Task) : (protocol cfg).Stable q (Runs q r l) :=
  fun _ _ hm h => ((kept_of_moves hm).runs r l).mpr h

theorem stable_loads : (protocol cfg).Stable q fun s => ∀ r l, Runs q r l s → l = none :=
  fun _ _ hm h r l hr => h r l (((kept_of_moves hm).runs r l).mp hr)

theorem stable_returned (call : Call) (res : Result) :
    (protocol cfg).Stable q (Returned q call res) := by
  intro s s' hm h herr
  obtain ⟨hsettled, hanswered⟩ := h herr
  refine ⟨stable_settled hm hsettled, fun replica hcall => ?_⟩
  exact stable_notes (fun n => n.Answered res.task) hm (hanswered replica hcall)

variable {call : Call}

theorem follows_failed {res : Result} (h : res.err ≠ none) :
    (protocol cfg).Follows q (Returned q call) (.ret res) s :=
  follows_ret (stable_returned call res) fun herr => absurd herr h

theorem follows_settled {res : Result} (hcall : ∀ replica, call ≠ .get replica) (h : Settled q s) :
    (protocol cfg).Follows q (Returned q call) (.ret res) s :=
  follows_ret (stable_returned call res) fun _ => ⟨h, fun replica hget => absurd hget (hcall replica)⟩

theorem Begun.settled (h : Begun q call s) : Settled q s :=
  ⟨fun w hw hq => absurd hq (h.writers w hw), h.strays⟩

/-- A cached value is fresh for every call that has started: the changes that were complete
by then have left their tombstones. -/
theorem Inv.fresh_of_slot (h : Inv cfg s) {t : Task} (hslot : s.cached.slot = .value t) (q : Nat) :
    (s.notes q).Fresh t := by
  intro c hc
  obtain ⟨w, hw, rfl, hexp⟩ := h.done q c hc
  exact h.sound.not_newer hslot hw hexp

/-- A read before its lookup and, after a miss, before it turns to the shared load. -/
structure Ready (q : Nat) (s : State) : Prop where
  started : (s.notes q).started = true
  join : (s.notes q).join = .none
  settled : Settled q s

theorem stable_ready : (protocol cfg).Stable q (Ready q) := by
  intro s s' hm h
  have hnotes := (kept_of_moves hm).notes
  exact ⟨by rw [hnotes]; exact h.started, by rw [hnotes]; exact h.join,
    stable_settled hm h.settled⟩

/-- What a read knows after its lookup. -/
def Found (q : Nat) (res : Except Err (Option (Valkey.Wire Task))) (s : State) : Prop :=
  Ready q s ∧ ∀ raw t, res = .ok (some raw) → Valkey.unmarshal raw = some t →
    (s.notes q).Fresh t

theorem stable_found (res : Except Err (Option (Valkey.Wire Task))) :
    (protocol cfg).Stable q (Found q res) := by
  intro s s' hm h
  refine ⟨stable_ready hm h.1, fun raw t hres hraw => ?_⟩
  exact stable_notes (fun n => n.Fresh t) hm (h.2 raw t hres hraw)

theorem follows_lookup (key : String) (h : Ready q s) :
    (protocol cfg).Follows q (Found q) (Valkey.get key) s := by
  unfold Valkey.get
  simp only [Prog.request_bind]
  refine follows_ask _ stable_ready h (fun s _ h => ⟨h.started, trivial⟩) ?_
  intro x rep s₁ s₂ hinv₁ hready hserve _
  have hnone : ∀ res : Except Err (Option (Valkey.Wire Task)), (∀ raw, res ≠ .ok (some raw)) →
      (protocol cfg).Follows q (Found q) (.ret res) s₁ := fun res hres =>
    follows_ret (stable_found res) ⟨hready, fun raw _ heq => absurd heq (hres raw)⟩
  cases x with
  | ok =>
    cases hserve
    cases hslot : s₁.cached.slot with
    | value t =>
      refine follows_ret (stable_found _) ⟨hready, fun raw u hres hraw => ?_⟩
      obtain rfl := some.inj (Except.ok.inj hres)
      obtain rfl := some.inj hraw
      exact hinv₁.fresh_of_slot hslot q
    | junk =>
      refine follows_ret (stable_found _) ⟨hready, fun raw u hres hraw => ?_⟩
      obtain rfl := some.inj (Except.ok.inj hres)
      cases hraw
    | empty => exact hnone _ (by simp [Valkey.wire])
    | tombstone e => exact hnone _ (by simp)
  | fail err =>
    cases hserve
    exact hnone _ (by simp)
  | late err => cases hserve

/-- What a read knows when it has its answer. -/
def Out (q : Nat) (out : Task × Bool × Option Err) (s : State) : Prop :=
  out.2.2 = none → Settled q s ∧ (s.notes q).Answered out.1

theorem stable_out (out : Task × Bool × Option Err) : (protocol cfg).Stable q (Out q out) := by
  intro s s' hm h hout
  obtain ⟨hsettled, hanswered⟩ := h hout
  exact ⟨stable_settled hm hsettled, stable_notes (fun n => n.Answered out.1) hm hanswered⟩

theorem follows_share (replica : Nat) (h : Ready q s) :
    (protocol cfg).Follows q (Out q) (Valkey.share replica) s := by
  unfold Valkey.share
  simp only [Prog.request_bind]
  refine follows_ask _ stable_ready h (fun s _ h => ⟨h.started, h.join⟩) ?_
  intro x rep s₁ s₂ _ hready hserve _
  have hjoined : s₂ = s₁.join q replica := by cases x <;> cases hserve; rfl
  subst hjoined
  have hstarted : ((s₁.join q replica).notes q).started = true := by
    simpa [State.join] using hready.started
  refine follows_ask _ ((stable_notes (fun n => n.started = true)).and stable_settled)
    ⟨hstarted, hready.settled⟩ (fun s _ h => ⟨h.1, trivial⟩) ?_
  rintro x rep s₃ s₄ hinv₃ ⟨-, hsettled⟩ hserve -
  cases x with
  | ok =>
    obtain ⟨res, hres, heq⟩ := map_eq_some_iff.mp hserve
    cases heq
    cases rep with
    | error err => exact follows_ret (stable_out _) fun hout => by cases hout
    | ok t =>
      exact follows_ret (stable_out _) fun _ =>
        ⟨hsettled, .inr (hinv₃.flown.delivered q t hres)⟩
  | fail err =>
    cases hserve
    exact follows_ret (stable_out _) fun hout => by cases hout
  | late err => cases hserve

theorem follows_aside (key : String) (replica : Nat) (h : Ready q s) (hinv : Inv cfg s) :
    (protocol cfg).Follows q (Out q) (Valkey.aside key replica) s := by
  unfold Valkey.aside
  refine follows_bind ((follows_lookup key h).mono fun res s₁ _ hfound => ?_) hinv
  match res with
  | .error err => exact follows_share replica hfound.1
  | .ok none => exact follows_share replica hfound.1
  | .ok (some raw) =>
    simp only
    cases hraw : Valkey.unmarshal raw with
    | none => exact follows_share replica hfound.1
    | some t =>
      refine follows_ret (stable_out _) fun _ => ⟨hfound.1.settled, .inl ⟨hfound.1.join, ?_⟩⟩
      exact hfound.2 raw t rfl hraw

theorem follows_get (replica : Nat) (h : Begun q (.get replica) s) (hinv : Inv cfg s) :
    (protocol cfg).Follows q (Returned q (.get replica)) ((Call.get replica).run cfg) s := by
  have hready : Ready q s := ⟨h.started, h.join, h.settled⟩
  unfold Call.run Cache.get
  refine follows_bind (follows_bind ((follows_aside _ replica hready hinv).mono
    fun out s₁ _ hout => ?_) hinv) hinv
  cases herr : out.2.2 with
  | some err => exact fun _ _ _ => follows_failed (by simp)
  | none =>
    obtain ⟨hsettled, hanswered⟩ := hout herr
    refine follows_ret (stable_follows _ _) ?_
    exact follows_ret (stable_returned _ _) fun _ => ⟨hsettled, fun _ _ => hanswered⟩

theorem reads_strays (s : State) (q : Nat) (v : Option Task) :
    (s.reads q v).strays = s.strays := by cases v <;> rfl

theorem reads_writers (s : State) (q : Nat) (v : Option Task) :
    (s.reads q v).cached.writers = s.cached.writers := by cases v <;> rfl

theorem reads_notes (s : State) (q : Nat) (v : Option Task) :
    (s.reads q v).notes = s.notes := by cases v <;> rfl

theorem execute_strays (cfg : Config) (q : Nat) (s : State) (r : StoreReq) :
    (execute cfg q s r).2.strays = s.strays := by
  obtain h | ⟨-, t, h⟩ | ⟨l, c, -, h⟩ := execute_cases cfg q s r
  all_goals rw [h]
  rfl

theorem execute_notes (cfg : Config) (q : Nat) (s : State) (r : StoreReq) :
    (execute cfg q s r).2.notes = s.notes := by
  obtain h | ⟨-, t, h⟩ | ⟨l, c, -, h⟩ := execute_cases cfg q s r
  all_goals rw [h]
  rfl

theorem serve_source {r : StoreReq} {x : Choice} {rep : StoreRep r}
    (h : serve cfg q (.source r) x s = some (rep, s')) :
    (rep = (execute cfg q s r).1 ∧
      s' = (execute cfg q s r).2.reads q (toFill r (execute cfg q s r).1)) ∨
    (∃ err, rep = failure r err) ∧ (r = .get → s' = s) := by
  cases x with
  | ok =>
    cases h
    exact .inl ⟨rfl, rfl⟩
  | fail err =>
    cases h
    exact .inr ⟨⟨err, rfl⟩, fun _ => rfl⟩
  | late err =>
    cases r <;> cases h
    all_goals exact .inr ⟨⟨err, rfl⟩, fun hget => by cases hget⟩

theorem follows_invalidate {res : Result} (hcall : ∀ replica, call ≠ .get replica)
    (hstarted : (s.notes q).started = true) (hstrays : ∀ x ∈ s.strays, x.1 ≠ q) :
    (protocol cfg).Follows q (Returned q call) (invalidate cfg >>= fun _ => .ret res) s := by
  have hpos : ¬cfg.tombstoneTTL ≤ 0 := Nat.not_le.mpr cfg.positive
  unfold invalidate Valkey.tombstone Valkey.setTombstone
  simp only [hpos, if_false, Prog.request_bind, Prog.ask_bind]
  refine follows_ask _ ((stable_notes (fun n => n.started = true)).and stable_strays)
    ⟨hstarted, hstrays⟩ (fun s _ h => ⟨h.1, rfl⟩) ?_
  intro x rep s₁ s₂ _ ⟨_, hno⟩ hserve _
  cases x <;> cases hserve
  refine follows_settled hcall ⟨fun w hw hq => ?_, hno⟩
  obtain ⟨w₀, -, -, -, ⟨-, hne⟩ | ⟨hexp, -⟩⟩ := Cached.Sound.mem_tombstone hw
  · exact absurd hq hne
  · simp [hexp]

/-- Before a handler calls the repository. -/
structure Calling (q : Nat) (s : State) : Prop where
  started : (s.notes q).started = true
  settled : Settled q s
  loads : ∀ r l, Runs q r l s → l = none

theorem stable_calling : (protocol cfg).Stable q (Calling q) := fun _ _ hm h =>
  ⟨stable_notes (fun n => n.started = true) hm h.started, stable_settled hm h.settled,
    stable_loads hm h.loads⟩

theorem Begun.calling (h : Begun q call s) : Calling q s :=
  ⟨h.started, h.settled, h.loads⟩

theorem Calling.executed (h : Calling q s) (r : StoreReq) (v : Option Task) :
    (((execute cfg q s r).2.reads q v).notes q).started = true ∧
      ∀ x ∈ ((execute cfg q s r).2.reads q v).strays, x.1 ≠ q := by
  rw [reads_notes, reads_strays, execute_notes, execute_strays]
  exact ⟨h.started, h.settled.2⟩

theorem follows_update (patch : Patch) (expect : Option Int)
    (h : Begun q (.update patch expect) s) :
    (protocol cfg).Follows q (Returned q (.update patch expect))
      ((Call.update patch expect).run cfg) s := by
  unfold Call.run
  simp only [Prog.request_bind]
  refine follows_ask _ stable_calling h.calling (fun s _ h => ⟨h.started, h.loads⟩) ?_
  intro x rep s₁ s₂ _ hcalling hserve _
  cases rep with
  | error err => exact follows_failed (by simp)
  | ok t =>
    rcases serve_source hserve with ⟨-, rfl⟩ | ⟨⟨err, herr⟩, -⟩
    · obtain ⟨hstarted, hstrays⟩ := hcalling.executed _ _
      exact follows_invalidate (by simp) hstarted hstrays
    · cases herr

theorem follows_delete (expect : Option Int) (h : Begun q (.delete expect) s) :
    (protocol cfg).Follows q (Returned q (.delete expect)) ((Call.delete expect).run cfg) s := by
  unfold Call.run
  simp only [Prog.request_bind]
  refine follows_ask _ stable_calling h.calling (fun s _ h => ⟨h.started, h.loads⟩) ?_
  intro x rep s₁ s₂ _ hcalling hserve _
  cases rep with
  | some err => exact follows_failed (by simp)
  | none =>
    rcases serve_source hserve with ⟨-, rfl⟩ | ⟨⟨err, herr⟩, -⟩
    · obtain ⟨hstarted, hstrays⟩ := hcalling.executed _ _
      exact follows_invalidate (by simp) hstarted hstrays
    · cases herr

theorem serve_setNX {v : Task} {x : Choice} {rep : Except Err Bool}
    (h : serve cfg q (.setNX v) x s = some (rep, s')) :
    ∃ c, s' = { s with cached := c } ∧ c.writers = s.cached.writers := by
  cases x <;> cases h <;> exact ⟨_, rfl, rfl⟩

theorem follows_setNX {α : Type} {Q : α → State → Prop} {A : State → Prop} {key : String}
    {t : Task} {f : Bool × Option Err → Cmd α} (hA : (protocol cfg).Stable q A)
    (hstarted : (s.notes q).started = true) (hfill : ⟨q, t, false⟩ ∈ s.cached.fills) (h : A s)
    (hsame : ∀ s c, c.writers = s.cached.writers → A s → A { s with cached := c })
    (hf : ∀ b s, (s.notes q).started = true → A s → (protocol cfg).Follows q Q (f b) s) :
    (protocol cfg).Follows q Q (Valkey.setNX key t >>= f) s := by
  unfold Valkey.setNX
  simp only [Prog.request_bind, Prog.ask_bind]
  refine follows_ask _ (((stable_notes (fun n => n.started = true)).and (stable_fill t)).and hA)
    ⟨⟨hstarted, hfill⟩, h⟩ (fun s _ h => h.1) ?_
  intro x rep s₁ s₂ _ ⟨⟨hstarted₁, _⟩, hA₁⟩ hserve _
  obtain ⟨c, rfl, hwriters⟩ := serve_setNX hserve
  have hA₂ := hsame s₁ c hwriters hA₁
  cases rep with
  | error err => exact hf _ _ hstarted₁ hA₂
  | ok written => exact hf _ _ hstarted₁ hA₂

theorem Settled.recached {c : Cached Nat Task Change} (hw : c.writers = s.cached.writers)
    (h : Settled q s) : Settled q { s with cached := c } :=
  ⟨fun w hmem => h.1 w (hw ▸ hmem), h.2⟩

theorem execute_create (cfg : Config) (q : Nat) (s : State) (title : String) :
    (execute cfg q s (.create title)).2.cached = s.cached := by
  cases hlife : s.life <;> simp only [execute, hlife]

theorem follows_create (title : String) (h : Begun q (.create title) s) :
    (protocol cfg).Follows q (Returned q (.create title)) ((Call.create title).run cfg) s := by
  unfold Call.run
  simp only [Prog.request_bind]
  refine follows_ask _ stable_calling h.calling (fun s _ h => ⟨h.started, h.loads⟩) ?_
  intro x rep s₁ s₂ _ hcalling hserve hinv₂
  cases rep with
  | error err => exact follows_failed (by simp)
  | ok out =>
    rcases serve_source hserve with ⟨hrep, rfl⟩ | ⟨⟨err, herr⟩, -⟩
    · have hsettled : ∀ v, Settled q ((execute cfg q s₁ (.create title)).2.reads q v) := by
        intro v
        unfold Settled
        rw [reads_writers, reads_strays, execute_strays, execute_create]
        exact hcalling.settled
      rw [← hrep] at hinv₂ ⊢
      match out with
      | (t, true) => exact follows_settled (by simp) (hsettled none)
      | (t, false) =>
        refine follows_bind (follows_setNX stable_settled (hcalling.executed _ _).1
          mem_cons_self
          (hsettled (some t)) (fun _ _ hw h => h.recached hw) fun _ _ _ hdone => ?_) hinv₂
        exact follows_ret (stable_follows _ _) (follows_settled (by simp) hdone)
    · cases herr

theorem follows_finish {replica : Nat} {res : Except Err Task} {l : Option Task}
    (hstarted : (s.notes q).started = true) (hruns : Runs q replica l s)
    (hres : ∀ t, res = .ok t → l = some t) (h : Settled q s) :
    (protocol cfg).Follows q (fun _ => Settled q) (Valkey.ask (.finish replica res)) s := by
  refine follows_ask _ (((stable_notes (fun n => n.started = true)).and (stable_runs replica l)).and
    stable_settled) ⟨⟨hstarted, hruns⟩, h⟩ (fun s _ h => ⟨h.1.1, l, h.1.2, hres⟩) ?_
  intro x rep s₁ s₂ _ ⟨_, hsettled⟩ hserve _
  cases x with
  | ok =>
    obtain ⟨f, -, heq⟩ := map_eq_some_iff.mp hserve
    cases heq
    exact follows_ret stable_settled hsettled
  | fail err => cases hserve
  | late err => cases hserve

theorem Runs.reads {replica : Nat} {l : Option Task} (h : Runs q replica l s) (t : Task) :
    Runs q replica (some t) (s.reads q (some t)) := by
  obtain ⟨f, hf, hrun, -⟩ := h
  exact ⟨f.load q t, by simp [State.reads, hf], by simp [Flight.load, hrun],
    by simp [Flight.load, hrun]⟩

/-- Whatever the load answers, its goroutine is the one that ends it, with what it has read. -/
theorem follows_load (key : String) (replica : Nat) (h : Begun q (.flight replica) s) :
    (protocol cfg).Follows q (fun _ => Settled q) (Valkey.flight key replica (ask .get)) s := by
  unfold Valkey.flight
  simp only [Prog.request_bind]
  refine follows_ask _ (stable_calling.and (stable_runs replica none))
    ⟨h.calling, h.runs replica rfl⟩ (fun s _ h => ⟨h.1.started, h.1.loads⟩) ?_
  intro x rep s₁ s₂ _ ⟨hcalling, hruns⟩ hserve _
  rcases serve_source hserve with ⟨hrep, hs⟩ | ⟨⟨err, rfl⟩, hs⟩
  · cases hlife : s₁.life with
    | live t =>
      simp only [execute, hlife, toFill] at hrep hs
      subst hrep hs
      refine follows_setNX ((stable_runs replica (some t)).and stable_settled) hcalling.started
        mem_cons_self ⟨hruns.reads t, hcalling.settled⟩
        (fun _ _ hw h => ⟨h.1, h.2.recached hw⟩) fun _ _ hstarted h => ?_
      exact follows_finish hstarted h.1 (fun u hu => congrArg some (Except.ok.inj hu)) h.2
    | _ =>
      simp only [execute, hlife, toFill] at hrep hs
      subst hrep hs
      exact follows_finish hcalling.started hruns (fun u hu => by cases hu) hcalling.settled
  · obtain rfl := hs rfl
    exact follows_finish hcalling.started hruns (fun u hu => by cases hu) hcalling.settled

theorem follows_flight (replica : Nat) (h : Begun q (.flight replica) s) (hinv : Inv cfg s) :
    (protocol cfg).Follows q (Returned q (.flight replica)) ((Call.flight replica).run cfg) s := by
  unfold Call.run
  refine follows_bind ((follows_load _ replica h).mono fun _ s₁ _ hsettled => ?_) hinv
  exact follows_settled (by simp) hsettled

theorem holds_of_run {c : Conc.Config Nat Req Rep State Call Result}
    (hc : (calls cfg).Reachable {} c) : (protocol cfg).Holds Returned c := by
  refine Protocol.holds_of_reachable (inv_init cfg) (fun p call s s' hinv ha => ?_) hc
  have ha : accept p call s = some s' := ha
  have hbegun := accept_begun hinv ha
  have hinv' := accept_inv hinv ha
  cases call with
  | create title => exact follows_create title hbegun
  | get replica => exact follows_get replica hbegun hinv'
  | update patch expect => exact follows_update patch expect hbegun
  | delete expect => exact follows_delete expect hbegun
  | flight replica => exact follows_flight replica hbegun hinv'

end GolangBasics.Tasks.Cache
