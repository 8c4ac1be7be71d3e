import GolangBasics.Tasks.Outbox.Publish

/-! `relayOnce` follows the protocol in every run of any number of passes. -/
namespace GolangBasics.Tasks.Outbox
open Conc Conc.Protocol

variable {orderly : Bool} {p : Nat} {s s' : State}

def Deletes (p : Nat) (done : List Nat) (s : State) : Prop :=
  ∀ t cs, s.db.session p = some (.active t cs) → ∀ id ∈ done, id ∈ deletes cs

theorem stable_deletes (done : List Nat) : (protocol orderly).Stable p (Deletes p done) :=
  fun _ _ hm h t cs hs => h t cs ((kept_of_moves hm).back t cs hs)

theorem follows_commit {done : List Nat} {k : Option Err → Pass Outcome}
    (hk : ∀ rep s, (protocol orderly).Follows p (fun _ _ => True) (k rep) s)
    (hacked : HasAcked p done s) (hdel : Deletes p done s) :
    (protocol orderly).Follows p (fun _ _ => True) (.ask .commit k) s := by
  refine follows_ask _ ((stable_hasAcked done).and (stable_deletes done)) ⟨hacked, hdel⟩
    (fun s _ h t cs hs id hid => ?_) fun _ rep _ s' _ _ _ _ => hk rep s'
  exact h.2 t cs hs id ((h.1 id).mp hid)

theorem follows_finish (acc : Progress) (hacked : HasAcked p acc.done s) (hholds : Holds p s) :
    (protocol orderly).Follows p (fun _ _ => True) acc.finish s := by
  unfold Progress.finish
  split_ifs with hdone
  · simp only [Prog.pure_eq_ret, Prog.ret_bind, Prog.request_bind]
    refine follows_commit (fun rep s => ?_) hacked fun t cs _ id hid => ?_
    · cases rep <;> exact follows_end _ s
    · simp [hdone] at hid
  · simp only [Prog.request_bind]
    refine follows_ask _ ((stable_hasAcked acc.done).and stable_holds) ⟨hacked, hholds⟩
      (fun s _ h t cs hs => ⟨h.2 t cs hs, fun id hid => (h.1 id).mpr hid⟩) ?_
    rintro _ rep s₁ s₂ - ⟨hacked, -⟩ hserve -
    cases rep with
    | some err => exact follows_end _ _
    | none =>
      obtain ⟨hlog, hdel⟩ := serve_deletePublished hserve
      refine follows_commit (fun rep s => ?_) ?_ hdel
      · cases rep <;> exact follows_end _ s
      · unfold HasAcked
        rw [hlog]
        exact hacked

/-- The batch a pass selects under the lock is ready to be published in order. -/
theorem ready_selectRows (hinv : Inv orderly s) {limit maxAttempts now : Nat} {locked : List Nat}
    (hmax : 0 < maxAttempts) (hlocked : orderly → locked = []) :
    Ready orderly (selectRows s.db.tables limit maxAttempts now locked) s := by
  intro x hx
  obtain ⟨r, hr, rfl, -⟩ := mem_selectRows hx
  refine ⟨hinv.1.origin r hr, ⟨r, hr, rfl⟩, fun ho a ha _ hlt => ?_⟩
  rcases hinv.1.kept a ha with ⟨r', hr', rfl⟩ | hacked
  · by_cases hdue : r'.due maxAttempts now
    · obtain rfl := hlocked ho
      exact .inr ⟨_, mem_selectRows_of_lt hinv.1.rowIds hr' hdue hx hlt, rfl⟩
    · refine .inl (.inr (hinv.1.marked r' hr' ?_))
      by_contra hfresh
      obtain ⟨hzero, hnone⟩ : r'.rejections = 0 ∧ r'.nextAttemptAt = none := by
        simpa [not_or] using hfresh
      exact hdue (by simp [Row.due, hzero, hnone, hmax])
  · exact .inl (.inl hacked)

theorem hasAcked_idle (hinv : Inv orderly s) (hs : s.db.session p = none) : HasAcked p [] s := by
  intro id
  refine ⟨?_, by simp⟩
  rintro ⟨y, hy, rfl, -, ha⟩
  by_cases hc : y.pass ∈ s.db.committed
  · simp [hinv.2.wf.committed _ hc] at hs
  · rcases hinv.2.holder y hy ha hc with hl | ⟨x, hx, -⟩
    · obtain ⟨x, hx, -⟩ := hinv.2.wf.locks _ _ hl
      simp [hx] at hs
    · simp [hx] at hs

theorem serve_beginTx {x : Choice} (h : serve orderly p .beginTx x s = some (none, s')) :
    s' = { s with db := s.db.start p } := by
  unfold serve at h
  split at h
  · cases h
  · cases x <;> simp only [answer] at h <;> try cases h
    split at h
    · cases h
      rfl
    · cases h

/-- The protocol above, or one for passes that keep to it, which leaves the statements around the
publish loop free. -/
structure Layer {M : Machine Nat Req Rep State Choice Env (Bool × Config) Outcome} (orderly : Bool)
    (G : Protocol M) : Prop where
  inv : ∀ {s}, G.inv s → Inv orderly s
  served : ∀ {p r x s y}, M.serve p r x s = some y → serve orderly p r x s = some y
  kept : ∀ {q s s'}, G.Moves q s s' → Kept orderly q s s'
  begins : ∀ {p s}, G.pre p .beginTx s ∧ G.pre p .tryLock s
  selects : ∀ {p limit maxAttempts s}, G.pre p (.selectBatch limit maxAttempts) s
  rolls : ∀ {p s}, G.pre p .rollback s

/-- The transaction has nothing staged. -/
def Fresh (p : Nat) (s : State) : Prop := ∀ t cs, s.db.session p = some (.active t cs) → cs = []

namespace Layer

variable {M : Machine Nat Req Rep State Choice Env (Bool × Config) Outcome} {G : Protocol M}
  {A : State → Prop}

theorem stable_fresh (L : Layer orderly G) : G.Stable p (Fresh p) :=
  fun _ _ hm h t cs hactive => h t cs ((L.kept hm).back t cs hactive)

theorem stable_holds (L : Layer orderly G) : G.Stable p (Holds p) :=
  fun _ _ hm h t cs hactive =>
    (L.kept hm).lock t cs hactive (h t cs ((L.kept hm).back t cs hactive))

section

-- `A` is about what the pass has published.
variable (L : Layer orderly G) {r : Relay} (hA : G.Stable p A)
  (hlog : ∀ s s', s'.log = s.log → A s → A s')
  (hloop : ∀ s start locked, G.inv s → A s → s.db.session p = some (.active start []) →
    s.db.locks () = some p → (orderly → locked = []) →
    G.Follows p (fun acc => G.Follows p (fun _ _ => True) acc.finish) (r.publishBatch
      (selectRows s.db.tables r.cfg.batchSize.toNat r.cfg.maxAttempts.toNat start locked)
      ⟨[], 0, none⟩) s)
include L hA hlog hloop

theorem follows_inTx (h : A s) (hfresh : Fresh p s) :
    G.Follows p (fun _ _ => True) r.inTx s := by
  unfold Relay.inTx
  simp only [Prog.request_bind]
  refine follows_ask _ (hA.and L.stable_fresh) ⟨h, hfresh⟩ (fun _ _ _ => L.begins.2) ?_
  rintro _ rep s₁ s₂ - ⟨h, hfresh⟩ hserve -
  match rep, hserve with
  | .error err, _ => exact follows_end _ _
  | .ok false, _ => exact follows_end _ _
  | .ok true, hserve =>
    obtain ⟨hsame, -, -, hsess, hlock, -⟩ := serve_tryLock (L.served hserve)
    have hfresh₂ : Fresh p s₂ := by
      unfold Fresh
      rw [hsess]
      exact hfresh
    refine follows_ask _ (hA.and (L.stable_fresh.and L.stable_holds))
      ⟨hlog s₁ s₂ hsame h, hfresh₂, fun _ _ _ => hlock⟩ (fun _ _ _ => L.selects) ?_
    rintro _ rep s₃ s₄ hinv ⟨h, hfresh, hholds⟩ hserve -
    cases rep with
    | failed err | unreadable err => exact follows_end _ _
    | rows batch =>
      obtain ⟨rfl, start, cs, locked, hs, hlocked, rfl⟩ := serve_selectBatch (L.served hserve)
      obtain rfl := hfresh start cs hs
      have hview : s₄.db.view apply p = s₄.db.tables := by
        rw [Database.view, Database.changes_active hs]
        rfl
      rw [hview]
      simp only
      split_ifs
      · exact follows_end _ _
      · exact follows_bind (hloop s₄ start locked hinv h hs (hholds start [] hs) hlocked) hinv

theorem follows_relayOnce (hidle : ∀ s, G.inv s → s.db.session p = none → A s)
    (hs : s.db.session p = none) : G.Follows p (fun _ _ => True) r.relayOnce s := by
  have hnone : G.Stable p fun s => s.db.session p = none := fun _ _ hm h => (L.kept hm).idle h
  unfold Relay.relayOnce
  split_ifs
  · simp only [Prog.request_bind]
    refine follows_ask _ hnone hs (fun _ _ _ => L.begins.1) ?_
    intro _ rep s₁ s₂ hinv hs hserve hinv₂
    cases rep with
    | some err => exact follows_end _ _
    | none =>
      obtain rfl := serve_beginTx (L.served hserve)
      have hfresh : Fresh p { s₁ with db := s₁.db.start p } := by
        intro t cs hactive
        have hactive : (s₁.db.put p (.active s₁.db.clock [])).session p = some (.active t cs) :=
          hactive
        simp_all
      have h : A { s₁ with db := s₁.db.start p } := hlog s₁ _ rfl (hidle s₁ hinv hs)
      have hinTx := L.follows_inTx hA hlog hloop h hfresh
      refine follows_bind (hinTx.mono fun out s _ _ => ?_) hinv₂
      exact follows_ask (fun _ => True) (Stable.const True) trivial (fun _ _ _ => L.rolls)
        fun _ _ _ _ _ _ _ _ => follows_end _ _
  · exact follows_end _ _

end

end Layer

theorem layer_protocol (orderly : Bool) : Layer orderly (protocol orderly) where
  inv := id
  served := id
  kept := kept_of_moves
  begins := ⟨trivial, trivial⟩
  selects := trivial
  rolls := trivial

theorem follows_relayOnce (r : Relay) (hmax : 0 < r.cfg.maxAttempts)
    (hs : s.db.session p = none) :
    (protocol orderly).Follows p (fun _ _ => True) r.relayOnce s := by
  refine (layer_protocol orderly).follows_relayOnce (stable_hasAcked []) (fun s s' hlog h => ?_)
    (fun s start locked hinv hacked hs hlock hlocked => ?_) (fun _ => hasAcked_idle) hs
  · unfold HasAcked
    rw [hlog]
    exact h
  · refine (follows_publishBatch r _ ⟨[], 0, none⟩ (selectRows_sorted hinv.1.rowIds _ _ _ _)
      (by simp) hacked ?_).mono fun acc s _ h => follows_finish acc h.1 h.2
    exact .inr ⟨⟨start, [], hs⟩, hlock, ready_selectRows hinv (by omega) hlocked⟩

theorem holds_of_run {c : Conc.Config Nat Req Rep State (Bool × Config) Outcome}
    (hc : (passes orderly).Reachable State.init c) :
    (protocol orderly).Holds (fun _ _ _ _ => True) c := by
  have hinit : (protocol orderly).inv State.init := ⟨records_init orderly, sessions_init⟩
  refine holds_of_reachable hinit (fun p call s s' _ haccept => ?_) hc
  simp only [passes] at haccept
  split_ifs at haccept with hs
  cases haccept
  refine follows_relayOnce _ ?_ (by simpa using hs)
  simp only [newRelay, Config.withDefaults]
  split_ifs
  · decide
  · omega

end GolangBasics.Tasks.Outbox
