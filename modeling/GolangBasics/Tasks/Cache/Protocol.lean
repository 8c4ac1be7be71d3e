import GolangBasics.Tasks.Cache.Invariant

/-! The requests of the handlers, the environment and the start of a call as moves that keep
the invariant. -/
namespace GolangBasics.Tasks.Cache
open Conc Relation List Option
open Store (Life expected updatedRow_eq_bump)

variable {cfg : Config} {s s' : State} {p q : Nat}

def pre (cfg : Config) (p : Nat) (r : Req) (s : State) : Prop :=
  (s.notes p).started = true ∧
    match r with
    | .setNX v => ⟨p, v, false⟩ ∈ s.cached.fills
    | .setTombstone ttl => ttl = cfg.tombstoneTTL
    | .doChan _ => (s.notes p).join = .none
    | .finish replica res => ∃ l, Runs p replica l s ∧ ∀ t, res = .ok t → l = some t
    | .source _ => ∀ r l, Runs p r l s → l = none
    | _ => True

theorem execute_cases (cfg : Config) (p : Nat) (s : State) (r : StoreReq) :
    (execute cfg p s r).2 = s ∨
    (s.life = .unborn ∧ ∃ t, (execute cfg p s r).2 = { s with life := .live t }) ∨
    ∃ l c, Changes s.life l c ∧ (execute cfg p s r).2 = s.change p l c := by
  cases r with
  | create title =>
    cases hlife : s.life with
    | unborn =>
      exact .inr (.inl ⟨rfl, ⟨cfg.id, title, false, 1, s.cached.clock⟩,
        by simp only [execute, hlife]⟩)
    | live t => exact .inl (by simp only [execute, hlife])
    | dead t => exact .inl (by simp only [execute, hlife])
  | get => exact .inl (by cases hlife : s.life <;> simp only [execute, hlife])
  | update patch expect =>
    cases hlife : s.life with
    | live t =>
      by_cases hexp : expected expect t = true
      · refine .inr (.inr ⟨_, _, .update t patch, ?_⟩)
        simp only [execute, hlife, hexp, if_true, updatedRow_eq_bump]
      · exact .inl (by simp only [execute, hlife, hexp]; rfl)
    | _ => exact .inl (by simp only [execute, hlife])
  | delete expect =>
    cases hlife : s.life with
    | live t =>
      by_cases hexp : expected expect t = true
      · exact .inr (.inr ⟨_, _, .delete t, by simp only [execute, hlife, hexp, if_true]⟩)
      · exact .inl (by simp only [execute, hlife, hexp]; rfl)
    | _ => exact .inl (by simp only [execute, hlife])

theorem execute_flights (cfg : Config) (p : Nat) (s : State) (r : StoreReq) :
    (execute cfg p s r).2.flights = s.flights := by
  obtain h | ⟨-, t, h⟩ | ⟨l, c, -, h⟩ := execute_cases cfg p s r
  all_goals rw [h]
  rfl

/-- What a caller puts into the cache is the row its method has read or written. -/
theorem toFill_live {r : StoreReq} {t : Task}
    (h : toFill r (execute cfg p s r).1 = some t) : (execute cfg p s r).2.life = .live t := by
  cases r with
  | create title =>
    cases hlife : s.life <;> simp only [execute, hlife, toFill] at h ⊢
    · exact congrArg Life.live (some.inj h)
    · cases h
    · cases h
  | get =>
    cases hlife : s.life <;> simp only [execute, hlife, toFill] at h ⊢
    · cases h
    · exact congrArg Life.live (some.inj h)
    · cases h
  | update patch expect => simp [toFill] at h
  | delete expect => simp [toFill] at h

theorem execute_moves (r : StoreReq) (hr : ∀ r l, Runs p r l s → l = none) :
    ReflTransGen (Move cfg p) s
      ((execute cfg p s r).2.reads p (toFill r (execute cfg p s r).1)) := by
  have hexec : ReflTransGen (Move cfg p) s (execute cfg p s r).2 := by
    obtain h | ⟨hu, t, h⟩ | ⟨l, c, hc, h⟩ := execute_cases cfg p s r
    · rw [h]
    · rw [h]
      exact .single (.create hu)
    · rw [h]
      exact .single (.change hc)
  cases hfill : toFill r (execute cfg p s r).1 with
  | none => exact hexec
  | some t =>
    refine hexec.tail (.read (toFill_live hfill) fun r' l hrun => hr r' l ?_)
    unfold Runs at hrun ⊢
    rw [execute_flights] at hrun
    exact hrun

theorem serve_moves {r : Req} {x : Choice} {rep : Rep r} (hpre : pre cfg p r s)
    (h : serve cfg p r x s = some (rep, s')) : ReflTransGen (Move cfg p) s s' := by
  cases r with
  | get => cases x <;> simp only [serve] at h <;> cases h <;> exact .refl
  | setNX v =>
    cases x <;> simp only [serve] at h <;> cases h
    · exact .single (.fill hpre.2)
    · exact .single .forget
    · exact .single .send
  | setTombstone ttl =>
    cases x <;> simp only [serve] at h <;> cases h
    obtain rfl : ttl = cfg.tombstoneTTL := hpre.2
    exact .single .tombstone
  | doChan replica =>
    cases x <;> simp only [serve] at h <;> cases h
    exact .single (.join hpre.2)
  | await =>
    cases x <;> simp only [serve] at h
    · obtain ⟨res, -, hres⟩ := map_eq_some_iff.mp h
      cases hres
      exact .refl
    · cases h
      exact .refl
    · cases h
  | finish replica res =>
    cases x <;> simp only [serve] at h
    · obtain ⟨f, hf, hres⟩ := map_eq_some_iff.mp h
      cases hres
      obtain ⟨l, ⟨f', hf', hrun, rfl⟩, hl⟩ := hpre.2
      obtain rfl := some.inj (hf'.symm.trans hf)
      exact .single (.finish hf hrun hl)
    · cases h
    · cases h
  | source r =>
    cases x with
    | ok =>
      cases h
      exact execute_moves r hpre.2
    | fail err =>
      cases h
      exact .refl
    | late err =>
      cases r <;> cases h
      all_goals exact .single .stray

theorem moves_inv (hm : ReflTransGen (Move cfg p) s s') (h : Inv cfg s)
    (hp : (s.notes p).started = true) : Inv cfg s' := by
  have hboth : Inv cfg s' ∧ (s'.notes p).started = true := by
    induction hm with
    | refl => exact ⟨h, hp⟩
    | tail _ hstep ih => exact ⟨hstep.inv ih.1 ih.2, by rw [(hstep.notes p).2]; exact ih.2⟩
  exact hboth.1

theorem moves_kept (hm : ReflTransGen (Move cfg p) s s') (hpq : p ≠ q) : Kept q s s' := by
  induction hm with
  | refl => exact .refl q s
  | tail _ hstep ih => exact ih.trans (hstep.kept hpq)

theorem Inv.recached (h : Inv cfg s) {c : Cached Nat Task Change}
    (hsound : c.Sound Change.newer cfg.tombstoneTTL fun t => s.life.row = some t)
    (hwriters : c.writers = s.cached.writers)
    (hkept : ∀ q, Kept q s { s with cached := c }) :
    Inv cfg { s with cached := c } ∧ ∀ q, Kept q s { s with cached := c } := by
  refine ⟨h.of_kept (fun w hw => ⟨w, ?_, rfl, id⟩) (fun _ => ⟨rfl, rfl⟩) (fun q _ => hkept q)
    ⟨hsound, fun hu => ?_⟩ h.flown, hkept⟩
  · show w ∈ c.writers
    rw [hwriters]
    exact hw
  · show c.writers = []
    rw [hwriters]
    exact h.unborn hu

theorem Kept.of_ledger {c : Cached Nat Task Change}
    (h : c.fills = s.cached.fills ∧ c.writers = s.cached.writers) (q : Nat) :
    Kept q s { s with cached := c } :=
  .of_cached (fun _ hv => by rw [h.1]; exact hv) fun w hw hq => ⟨w, h.2 ▸ hw, hq, id⟩

/-- A commit that was given up and arrives. The caller has seen an error and writes no
tombstone for it. -/
theorem land_commit (h : Inv cfg s) {r : StoreReq} (hr : (p, r) ∈ s.strays)
    (hs : s' = (execute cfg p { s with strays := s.strays.filter fun y => y.1 ≠ p } r).2) :
    Inv cfg s' ∧ ∀ q, Kept q s s' := by
  have hp : (s.notes p).started = true := by
    by_contra hp
    exact (h.idle p (by simpa using hp)).strays _ hr rfl
  have hdrop : ∀ q, Kept q s { s with strays := s.strays.filter fun y => y.1 ≠ p } := fun q =>
    ⟨rfl, fun _ hv => hv, fun x hx _ => (mem_filter.mp hx).1,
      fun _ w hw hq => ⟨w, hw, hq, id⟩, fun _ _ => Iff.rfl⟩
  have hinv : Inv cfg { s with strays := s.strays.filter fun y => y.1 ≠ p } :=
    h.of_kept (.refl s) (fun _ => ⟨rfl, rfl⟩) (fun q _ => hdrop q) ⟨h.sound, h.unborn⟩ h.flown
  generalize hs₀ : { s with strays := s.strays.filter fun y => y.1 ≠ p } = s₀ at hs hinv hdrop
  have hp₀ : (s₀.notes p).started = true := by rw [(hdrop p).notes]; exact hp
  obtain heq | ⟨hu, t, heq⟩ | ⟨l, c, hc, heq⟩ := execute_cases cfg p s₀ r
  · rw [hs, heq]
    exact ⟨hinv, hdrop⟩
  · rw [hs, heq]
    refine ⟨(Move.create hu).inv hinv hp₀, fun q => (hdrop q).trans ?_⟩
    exact .of_same rfl rfl rfl fun _ _ => Iff.rfl
  · rw [hs, heq]
    refine ⟨(Move.change hc).inv hinv hp₀, fun q => ?_⟩
    by_cases hpq : p = q
    · subst hpq
      refine ⟨(hdrop p).notes, (hdrop p).fills, (hdrop p).strays, fun hno => ?_, (hdrop p).runs⟩
      exact absurd rfl (hno _ hr)
    · exact (hdrop q).trans (.change hpq)

theorem env_spec {e : Env} (h : Inv cfg s) (he : env cfg e s = some s') :
    Inv cfg s' ∧ ∀ q, Kept q s s' := by
  cases e with
  | tick d =>
    obtain ⟨c, hc, rfl⟩ := map_eq_some_iff.mp he
    have hledger := Cached.tick_ledger hc
    exact h.recached (h.sound.tick hc) hledger.2 (.of_ledger hledger)
  | expire =>
    obtain ⟨c, hc, rfl⟩ := map_eq_some_iff.mp he
    have hledger := Cached.expire_ledger hc
    exact h.recached (h.sound.expire hc) hledger.2 (.of_ledger hledger)
  | spoil =>
    obtain ⟨c, hc, rfl⟩ := map_eq_some_iff.mp he
    have hledger := Cached.spoil_ledger hc
    exact h.recached (h.sound.spoil hc) hledger.2 (.of_ledger hledger)
  | landFill p =>
    obtain ⟨f, hf, rfl⟩ := map_eq_some_iff.mp he
    have hmem := List.mem_of_find?_eq_some hf
    exact h.recached (h.sound.fill hmem) rfl fun q => .fill (.inr rfl)
  | dropFill p =>
    obtain ⟨f, hf, rfl⟩ := map_eq_some_iff.mp he
    exact h.recached h.sound.forget rfl fun q => .forget (.inr rfl)
  | landCommit p =>
    obtain ⟨⟨p', r⟩, hx, hs⟩ := map_eq_some_iff.mp he
    obtain rfl : p' = p := by simpa using List.find?_some hx
    exact land_commit h (List.mem_of_find?_eq_some hx) hs.symm

structure Begun (p : Nat) (call : Call) (s : State) : Prop where
  started : (s.notes p).started = true
  join : (s.notes p).join = .none
  writers : ∀ w ∈ s.cached.writers, w.proc ≠ p
  strays : ∀ x ∈ s.strays, x.1 ≠ p
  loads : ∀ r l, Runs p r l s → l = none
  runs : ∀ replica, call = .flight replica → Runs p replica none s

def Manned (p : Nat) (flights flights' : Nat → Option Flight) : Prop :=
  ∀ r, flights' r = flights r ∨
    ∃ f, flights r = some f ∧ f.runner = none ∧ flights' r = some { f with runner := some p }

variable {call : Call}

theorem accept_cases (ha : accept p call s = some s') : (s.notes p).started = false ∧ ∃ flights,
      s' = { s with
        notes := Function.update s.notes p { started := true, done := s.done }
        flights := flights } ∧
      Manned p s.flights flights ∧
      ∀ replica, call = .flight replica → ∃ f, s.flights replica = some f ∧ f.runner = none ∧
        flights replica = some { f with runner := some p } := by
  unfold accept at ha
  simp only at ha
  split at ha
  · cases ha
  · rename_i hstarted
    refine ⟨by simpa using hstarted, ?_⟩
    split at ha
    · rename_i replica
      split at ha
      · rename_i callers loaded hf
        obtain rfl := some.inj ha
        refine ⟨_, rfl, fun r => ?_, fun r hr => ?_⟩
        · by_cases hr : r = replica
          · subst hr
            exact .inr ⟨_, hf, rfl, by simp⟩
          · exact .inl (Function.update_of_ne hr _ _)
        · cases hr
          exact ⟨_, hf, rfl, by simp⟩
      · cases ha
    · rename_i hcall
      obtain rfl := some.inj ha
      exact ⟨_, rfl, fun _ => .inl rfl, fun replica h => absurd h (hcall replica)⟩

theorem Manned.runs {flights flights' : Nat → Option Flight} (h : Manned p flights flights')
    (hpq : p ≠ q) (r : Nat) (l : Option Task) :
    (∃ f, flights' r = some f ∧ f.runner = some q ∧ f.loaded = l) ↔
      ∃ f, flights r = some f ∧ f.runner = some q ∧ f.loaded = l := by
  rcases h r with heq | ⟨f, hf, hrun, hf'⟩
  · rw [heq]
  · simp [hf, hf', hrun, hpq]

theorem accept_kept (ha : accept p call s = some s') (hpq : p ≠ q) : Kept q s s' := by
  obtain ⟨-, flights, rfl, hmanned, -⟩ := accept_cases ha
  exact .of_same (Function.update_of_ne (Ne.symm hpq) _ _) rfl rfl (hmanned.runs hpq)

/-- A call that starts has joined no load, so that its notes are its own. -/
theorem Flown.accept (h : Flown s.notes s.flights s.inbox) (hp : (s.notes p).join = .none)
    {flights : Nat → Option Flight} (hmanned : Manned p s.flights flights) (n : Notes) :
    Flown (Function.update s.notes p n) flights s.inbox := by
  have hother : ∀ {q l}, (s.notes q).Joined l → (Function.update s.notes p n q).Joined l := by
    intro q l hq
    have hne : q ≠ p := by
      rintro rfl
      simp [Notes.Joined, hp] at hq
    rw [Function.update_of_ne hne]
    exact hq
  refine ⟨fun r f hf hrun => ?_, fun r f hf q hq => hother ?_,
    fun q t hq => hother (h.delivered q t hq)⟩
  · rcases hmanned r with heq | ⟨f₀, -, -, hf'⟩
    · exact h.waiting r f (heq ▸ hf) hrun
    · obtain rfl := some.inj (hf'.symm.trans hf)
      cases hrun
  · rcases hmanned r with heq | ⟨f₀, hf₀, -, hf'⟩
    · exact h.joined r f (heq ▸ hf) q hq
    · obtain rfl := some.inj (hf'.symm.trans hf)
      exact h.joined r f₀ hf₀ q hq

theorem accept_inv (h : Inv cfg s) (ha : accept p call s = some s') : Inv cfg s' := by
  have hkept : ∀ {q}, p ≠ q → Kept q s s' := accept_kept ha
  obtain ⟨hp, flights, rfl, hmanned, -⟩ := accept_cases ha
  refine ⟨h.sound, h.unborn, h.flown.accept (h.idle p hp).join hmanned _, fun q c hc => ?_,
    fun q hq => ?_⟩
  · by_cases hqp : q = p
    · subst hqp
      have hc : c ∈ s.done := by simpa using hc
      obtain ⟨w, hw, rfl⟩ := List.mem_map.mp hc
      obtain ⟨hw, hexp⟩ := mem_filter.mp hw
      exact ⟨w, hw, rfl, isSome_iff_ne_none.mp hexp⟩
    · exact h.done q c (by simpa [Function.update_of_ne hqp] using hc)
  · have hpq : p ≠ q := by
      rintro rfl
      simp at hq
    have hq : (s.notes q).started = false := by
      simpa [Function.update_of_ne (Ne.symm hpq)] using hq
    exact (h.idle q hq).kept (hkept hpq)

theorem accept_begun (h : Inv cfg s) (ha : accept p call s = some s') : Begun p call s' := by
  obtain ⟨hp, flights, rfl, hmanned, hcall⟩ := accept_cases ha
  have hidle := h.idle p hp
  refine ⟨by simp, by simp, hidle.writers, hidle.strays, fun r l hrun => ?_, fun replica hr => ?_⟩
  · obtain ⟨f, hf, hrun, rfl⟩ := hrun
    rcases hmanned r with heq | ⟨f₀, hf₀, hnone, hf'⟩
    · exact absurd ⟨f, heq ▸ hf, hrun, rfl⟩ (hidle.runs r f.loaded)
    · obtain rfl := some.inj (hf'.symm.trans hf)
      exact h.flown.waiting r f₀ hf₀ hnone
  · obtain ⟨f, hf, hnone, hf'⟩ := hcall replica hr
    exact ⟨_, hf', rfl, h.flown.waiting replica f hf hnone⟩

def protocol (cfg : Config) : Protocol (calls cfg) where
  inv := Inv cfg
  pre := pre cfg
  serve_inv h hpre hs := moves_inv (serve_moves hpre hs) h hpre.1
  env_inv h he := (env_spec h he).1
  accept_inv h ha := accept_inv h ha

theorem kept_of_moves (hm : (protocol cfg).Moves q s s') : Kept q s s' := by
  cases hm with
  | serve hpq _ hpre h => exact moves_kept (serve_moves hpre h) hpq
  | env hinv h => exact (env_spec hinv h).2 q
  | accept hpq _ h => exact accept_kept h hpq

theorem inv_init (cfg : Config) : Inv cfg {} where
  sound := Cached.Sound.init fun t ht => by cases ht
  unborn _ := rfl
  flown := by constructor <;> simp
  done q c hc := by simp at hc
  idle q _ := by constructor <;> simp [Runs]

end GolangBasics.Tasks.Cache
