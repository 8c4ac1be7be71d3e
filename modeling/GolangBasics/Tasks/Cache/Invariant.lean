import GolangBasics.Tasks.Cache.Handlers

/-! What the requests on a cached task preserve: the cache stands soundly to the database,
and a shared load to the reads that joined it. -/
namespace GolangBasics.Tasks.Cache
open Conc List Option
open Store (Life bump)

variable {cfg : Config} {s s' : State} {p q : Nat}

def Notes.Fresh (n : Notes) (t : Task) : Prop := ∀ c ∈ n.done, c.newer t = false

def Notes.Joined (n : Notes) (loaded : Option Task) : Prop :=
  match n.join with
  | .none => False
  | .early => ∀ t, loaded = some t → n.Fresh t
  | .late t => loaded = some t

/-- `p` runs the load of a replica, which has read `loaded`. -/
def Runs (p replica : Nat) (loaded : Option Task) (s : State) : Prop :=
  ∃ f, s.flights replica = some f ∧ f.runner = some p ∧ f.loaded = loaded

structure Flown (notes : Nat → Notes) (flights : Nat → Option Flight)
    (inbox : Nat → Option (Except Err Task)) : Prop where
  waiting : ∀ r f, flights r = some f → f.runner = none → f.loaded = none
  joined : ∀ r f, flights r = some f → ∀ q ∈ f.callers, (notes q).Joined f.loaded
  delivered : ∀ q t, inbox q = some (.ok t) → (notes q).Joined (some t)

structure Idle (p : Nat) (s : State) : Prop where
  join : (s.notes p).join = .none
  writers : ∀ w ∈ s.cached.writers, w.proc ≠ p
  strays : ∀ x ∈ s.strays, x.1 ≠ p
  runs : ∀ r l, ¬Runs p r l s

structure Inv (cfg : Config) (s : State) : Prop where
  sound : s.cached.Sound Change.newer cfg.tombstoneTTL fun t => s.life.row = some t
  unborn : s.life = .unborn → s.cached.writers = []
  flown : Flown s.notes s.flights s.inbox
  done : ∀ q, ∀ c ∈ (s.notes q).done, ∃ w ∈ s.cached.writers, w.change = c ∧ w.expires ≠ none
  idle : ∀ q, (s.notes q).started = false → Idle q s

inductive Changes : Life → Life → Change → Prop where
  | update (r : Task) (patch : Patch) :
      Changes (.live r) (.live (bump patch r)) (.update (bump patch r).version)
  | delete (r : Task) : Changes (.live r) (.dead r) .delete

inductive Move (cfg : Config) (p : Nat) (s : State) : State → Prop where
  | fill {v} (hf : ⟨p, v, false⟩ ∈ s.cached.fills) :
      Move cfg p s { s with cached := s.cached.fill p false v }
  | forget : Move cfg p s { s with cached := s.cached.forget p false }
  | send : Move cfg p s { s with cached := s.cached.send p }
  | tombstone : Move cfg p s { s with cached := s.cached.tombstone cfg.tombstoneTTL p }
  | join {replica} (hj : (s.notes p).join = .none) : Move cfg p s (s.join p replica)
  | finish {replica f res} (hf : s.flights replica = some f) (hr : f.runner = some p)
      (hres : ∀ t, res = .ok t → f.loaded = some t) : Move cfg p s { s with
        flights := Function.update s.flights replica none
        inbox := fun q => if q ∈ f.callers then some res else s.inbox q }
  | create {t} (h : s.life = .unborn) : Move cfg p s { s with life := .live t }
  | change {life c} (h : Changes s.life life c) : Move cfg p s (s.change p life c)
  | read {t} (h : s.life = .live t) (hr : ∀ r l, Runs p r l s → l = none) :
      Move cfg p s (s.reads p (some t))
  | stray {r} : Move cfg p s { s with strays := (p, r) :: s.strays }

def Lasts (s s' : State) : Prop :=
  ∀ w ∈ s.cached.writers, ∃ w' ∈ s'.cached.writers, w'.change = w.change ∧
    (w.expires ≠ none → w'.expires ≠ none)

theorem Lasts.refl (s : State) : Lasts s s := fun w hw => ⟨w, hw, rfl, id⟩

structure Kept (q : Nat) (s s' : State) : Prop where
  notes : s'.notes q = s.notes q
  fills : ∀ v, ⟨q, v, false⟩ ∈ s.cached.fills → ⟨q, v, false⟩ ∈ s'.cached.fills
  strays : ∀ x ∈ s'.strays, x.1 = q → x ∈ s.strays
  writers : (∀ x ∈ s.strays, x.1 ≠ q) → ∀ w' ∈ s'.cached.writers, w'.proc = q →
    ∃ w ∈ s.cached.writers, w.proc = q ∧ (w.expires ≠ none → w'.expires ≠ none)
  runs : ∀ r l, Runs q r l s' ↔ Runs q r l s

theorem Kept.refl (q : Nat) (s : State) : Kept q s s where
  notes := rfl
  fills _ h := h
  strays _ h _ := h
  writers _ w hw hq := ⟨w, hw, hq, id⟩
  runs _ _ := Iff.rfl

theorem Kept.trans {s₁ s₂ s₃ : State} (h₁ : Kept q s₁ s₂) (h₂ : Kept q s₂ s₃) : Kept q s₁ s₃ where
  notes := h₂.notes.trans h₁.notes
  fills v hv := h₂.fills v (h₁.fills v hv)
  strays x hx hq := h₁.strays x (h₂.strays x hx hq) hq
  writers hno w hw hq := by
    have hno₂ : ∀ x ∈ s₂.strays, x.1 ≠ q := fun x hx hq => hno x (h₁.strays x hx hq) hq
    obtain ⟨w₂, hw₂, hq₂, he₂⟩ := h₂.writers hno₂ w hw hq
    obtain ⟨w₁, hw₁, hq₁, he₁⟩ := h₁.writers hno w₂ hw₂ hq₂
    exact ⟨w₁, hw₁, hq₁, fun h => he₂ (he₁ h)⟩
  runs r l := (h₂.runs r l).trans (h₁.runs r l)

theorem Idle.kept (h : Idle q s) (hk : Kept q s s') : Idle q s' where
  join := by rw [hk.notes]; exact h.join
  writers w hw hq := by
    obtain ⟨w₀, hw₀, hq₀, -⟩ := hk.writers h.strays w hw hq
    exact h.writers w₀ hw₀ hq₀
  strays x hx hq := h.strays x (hk.strays x hx hq) hq
  runs r l hr := h.runs r l ((hk.runs r l).mp hr)

theorem Kept.of_same (hnotes : s'.notes q = s.notes q) (hcached : s'.cached = s.cached)
    (hstrays : s'.strays = s.strays) (hruns : ∀ r l, Runs q r l s' ↔ Runs q r l s) :
    Kept q s s' where
  notes := hnotes
  fills v hv := by rw [hcached]; exact hv
  strays x hx _ := by rw [← hstrays]; exact hx
  writers _ w hw hq := ⟨w, by rw [← hcached]; exact hw, hq, id⟩
  runs := hruns

theorem Kept.of_cached {c : Cached Nat Task Change}
    (hfills : ∀ v, ⟨q, v, false⟩ ∈ s.cached.fills → ⟨q, v, false⟩ ∈ c.fills)
    (hwriters : ∀ w' ∈ c.writers, w'.proc = q →
      ∃ w ∈ s.cached.writers, w.proc = q ∧ (w.expires ≠ none → w'.expires ≠ none)) :
    Kept q s { s with cached := c } where
  notes := rfl
  fills := hfills
  strays _ h _ := h
  writers _ := hwriters
  runs _ _ := Iff.rfl

theorem Kept.forget {sent : Bool} (h : p ≠ q ∨ sent = true) :
    Kept q s { s with cached := s.cached.forget p sent } := by
  refine .of_cached (fun v hv => mem_filter.mpr ⟨hv, ?_⟩) fun w hw hq => ⟨w, hw, hq, id⟩
  rcases h with h | h
  · simp [Ne.symm h]
  · simp [h]

theorem Kept.fill {sent : Bool} {v : Task} (h : p ≠ q ∨ sent = true) :
    Kept q s { s with cached := s.cached.fill p sent v } :=
  have hforget := Kept.forget (s := s) h
  .of_cached hforget.fills fun w hw hq => ⟨w, hw, hq, id⟩

theorem Kept.change {life : Life} {c : Change} (h : p ≠ q) : Kept q s (s.change p life c) where
  notes := rfl
  fills _ hv := hv
  strays _ hx _ := hx
  writers _ w hw hq := by
    rcases mem_cons.mp hw with rfl | hw
    · exact absurd hq h
    · exact ⟨w, hw, hq, id⟩
  runs _ _ := Iff.rfl

theorem runs_join {replica r : Nat} {l : Option Task} :
    Runs q r l (s.join p replica) ↔ Runs q r l s := by
  unfold Runs State.join
  by_cases hr : r = replica
  · subst hr
    cases hf : s.flights r <;> simp
  · simp [Function.update_of_ne hr]

theorem runs_reads {t : Task} (h : p ≠ q) {r : Nat} {l : Option Task} :
    Runs q r l (s.reads p (some t)) ↔ Runs q r l s := by
  unfold Runs State.reads
  cases hf : s.flights r with
  | none => simp [hf]
  | some f =>
    by_cases hrun : f.runner = some p
    · simp [hf, Flight.load, hrun, h]
    · simp [hf, Flight.load, hrun]

theorem runs_finish {replica r : Nat} {f : Flight} {l : Option Task}
    {inbox : Nat → Option (Except Err Task)} (hf : s.flights replica = some f)
    (hq : f.runner ≠ some q) :
    Runs q r l { s with flights := Function.update s.flights replica none, inbox := inbox } ↔
      Runs q r l s := by
  unfold Runs
  by_cases hr : r = replica
  · subst hr
    simp [hf, hq]
  · simp [Function.update_of_ne hr]

theorem Move.kept (hm : Move cfg p s s') (hpq : p ≠ q) : Kept q s s' := by
  cases hm with
  | fill => exact .fill (.inl hpq)
  | forget => exact .forget (.inl hpq)
  | send =>
    refine .of_cached (fun v hv => List.mem_map.mpr ⟨_, hv, ?_⟩) fun w hw hq => ⟨w, hw, hq, id⟩
    simp [Ne.symm hpq]
  | tombstone =>
    refine .of_cached (fun _ hv => hv) fun w hw hq => ?_
    obtain ⟨w₀, hw₀, -, hproc, ⟨hexp, -⟩ | ⟨-, hp⟩⟩ := Cached.Sound.mem_tombstone hw
    · exact ⟨w₀, hw₀, hproc.trans hq, by rw [hexp]; exact id⟩
    · exact absurd (hp.symm.trans hq) hpq
  | join =>
    exact .of_same (Function.update_of_ne (Ne.symm hpq) _ _) rfl rfl fun _ _ => runs_join
  | finish hf hr =>
    have hq : ¬_ = some q := fun h => hpq (some.inj (hr.symm.trans h))
    exact .of_same rfl rfl rfl fun _ _ => runs_finish hf hq
  | create => exact .of_same rfl rfl rfl fun _ _ => Iff.rfl
  | change => exact .change hpq
  | read =>
    exact ⟨rfl, fun _ hv => mem_cons_of_mem _ hv, fun _ hx _ => hx,
      fun _ w hw hq => ⟨w, hw, hq, id⟩, fun _ _ => runs_reads hpq⟩
  | stray =>
    refine ⟨rfl, fun _ hv => hv, fun x hx hq => ?_, fun _ w hw hq => ⟨w, hw, hq, id⟩,
      fun _ _ => Iff.rfl⟩
    rcases mem_cons.mp hx with rfl | hx
    · exact absurd hq hpq
    · exact hx

theorem Move.lasts (hm : Move cfg p s s') : Lasts s s' := by
  cases hm with
  | tombstone =>
    intro w hw
    refine ⟨_, List.mem_map_of_mem hw, ?_⟩
    split <;> simp
  | change => exact fun w hw => ⟨w, mem_cons_of_mem _ hw, rfl, id⟩
  | _ => exact .refl s

theorem Move.notes (hm : Move cfg p s s') (q : Nat) :
    (s'.notes q).done = (s.notes q).done ∧ (s'.notes q).started = (s.notes q).started := by
  cases hm with
  | join =>
    by_cases hq : q = p
    · subst hq
      simp [State.join]
    · simp [State.join, Function.update_of_ne hq]
  | _ => exact ⟨rfl, rfl⟩

theorem Change.newer_mono {c : Change} {r t : Task} (h : c.newer r = false)
    (hle : r.version ≤ t.version) : c.newer t = false := by
  cases c with
  | update version =>
    have hr : ¬r.version < version := by simpa [Change.newer] using h
    have ht : ¬t.version < version := by omega
    simpa [Change.newer] using ht
  | delete => cases h

theorem Changes.ne_unborn {l l' : Life} {c : Change} (hc : Changes l l' c) : l' ≠ .unborn := by
  cases hc <;> simp

/-- A change is newer than the row it replaces, and no older change is newer than the row it
leaves. -/
theorem Changes.sound {l l' : Life} {c : Change} (hc : Changes l l' c)
    {e : Cached Nat Task Change} {ttl : Nat}
    (h : e.Sound Change.newer ttl fun t => l.row = some t) :
    (e.commit p c).Sound Change.newer ttl fun t => l'.row = some t := by
  cases hc with
  | update r patch =>
    have hlt : r.version < (bump patch r).version := by
      show r.version < r.version + 1
      omega
    refine h.commit (fun v hv => ?_) fun v hv => ?_
    · obtain rfl : r = v := by simpa [Life.row] using hv
      exact decide_eq_true hlt
    · obtain rfl : bump patch r = v := by simpa [Life.row] using hv
      refine ⟨by simp [Change.newer], fun w hw => ?_⟩
      exact Change.newer_mono (h.latest r rfl w hw) (Int.le_of_lt hlt)
  | delete =>
    exact h.commit (fun v _ => rfl) fun v hv => by simp [Life.row] at hv

theorem Move.sound (hm : Move cfg p s s') (h : Inv cfg s) :
    s'.cached.Sound Change.newer cfg.tombstoneTTL (fun t => s'.life.row = some t) ∧
      (s'.life = .unborn → s'.cached.writers = []) := by
  cases hm with
  | fill hf => exact ⟨h.sound.fill hf, h.unborn⟩
  | forget => exact ⟨h.sound.forget, h.unborn⟩
  | send => exact ⟨h.sound.send, h.unborn⟩
  | tombstone =>
    exact ⟨h.sound.tombstone cfg.positive, fun hu => by simp [Cached.tombstone, h.unborn hu]⟩
  | join => exact ⟨h.sound, h.unborn⟩
  | finish => exact ⟨h.sound, h.unborn⟩
  | create hu =>
    refine ⟨h.sound.born (fun t ht => ?_) (h.unborn hu), fun hlive => by cases hlive⟩
    rw [hu] at ht
    cases ht
  | change hc => exact ⟨hc.sound h.sound, fun hu => absurd hu hc.ne_unborn⟩
  | read hlive => exact ⟨h.sound.read (by rw [hlive]; rfl), h.unborn⟩
  | stray => exact ⟨h.sound, h.unborn⟩

/-- A read that joins a load knows what that one has read. -/
theorem Flown.join (h : Flown s.notes s.flights s.inbox) (hj : (s.notes p).join = .none)
    (replica : Nat) :
    Flown (s.join p replica).notes (s.join p replica).flights (s.join p replica).inbox := by
  have hne : ∀ {q l}, (s.notes q).Joined l → q ≠ p := by
    rintro q l hq rfl
    simp [Notes.Joined, hj] at hq
  have hother : ∀ {q l}, (s.notes q).Joined l → ((s.join p replica).notes q).Joined l := by
    intro q l hq
    simp only [State.join, Function.update_of_ne (hne hq)]
    exact hq
  refine ⟨fun r f hf hr => ?_, fun r f hf q hq => ?_, fun q t hq => hother (h.delivered q t hq)⟩
  · by_cases hrep : r = replica
    · subst hrep
      cases hold : s.flights r with
      | none =>
        obtain rfl : _ = f := by simpa [State.join, hold] using hf
        rfl
      | some f₀ =>
        obtain rfl : _ = f := by simpa [State.join, hold] using hf
        exact h.waiting r f₀ hold hr
    · exact h.waiting r f (by simpa [State.join, Function.update_of_ne hrep] using hf) hr
  · by_cases hrep : r = replica
    · subst hrep
      by_cases hqp : q = p
      · subst hqp
        obtain rfl : _ = f := by simpa [State.join] using hf
        cases hload : ((s.flights r).getD { callers := [] }).loaded <;>
          simp [State.join, Notes.Joined, hload]
      · cases hold : s.flights r with
        | none =>
          obtain rfl : _ = f := by simpa [State.join, hold] using hf
          simp [hqp] at hq
        | some f₀ =>
          obtain rfl : _ = f := by simpa [State.join, hold] using hf
          have hq : q ∈ f₀.callers := by simpa [hqp] using hq
          exact hother (h.joined r f₀ hold q hq)
    · have hf : s.flights r = some f := by simpa [State.join, Function.update_of_ne hrep] using hf
      exact hother (h.joined r f hf q hq)

/-- The row that a load reads is fresh for all that have joined it before. -/
theorem Inv.flown_read (h : Inv cfg s) {t : Task} (hlive : s.life = .live t)
    (hr : ∀ r l, Runs p r l s → l = none) :
    Flown s.notes (fun r => (s.flights r).map (Flight.load p t)) s.inbox := by
  have hfresh : ∀ q, (s.notes q).Fresh t := by
    intro q c hc
    obtain ⟨w, hw, rfl, -⟩ := h.done q c hc
    exact h.sound.latest t (by rw [hlive]; rfl) w hw
  refine ⟨fun r f hf hrun => ?_, fun r f hf q hq => ?_, h.flown.delivered⟩
  · obtain ⟨f₀, hf₀, rfl⟩ := map_eq_some_iff.mp hf
    by_cases hp : f₀.runner = some p
    · simp [Flight.load, hp] at hrun
    · simp only [Flight.load, hp, if_false] at hrun ⊢
      exact h.flown.waiting r f₀ hf₀ hrun
  · obtain ⟨f₀, hf₀, rfl⟩ := map_eq_some_iff.mp hf
    by_cases hp : f₀.runner = some p
    · have hnone := hr r f₀.loaded ⟨f₀, hf₀, hp, rfl⟩
      simp only [Flight.load, hp, if_true] at hq ⊢
      have hjoined := h.flown.joined r f₀ hf₀ q hq
      unfold Notes.Joined at hjoined ⊢
      cases hj : (s.notes q).join with
      | none => simp [hj] at hjoined
      | early =>
        intro u hu
        obtain rfl := some.inj hu
        exact hfresh q
      | late u => simp [hj, hnone] at hjoined
    · simp only [Flight.load, hp, if_false] at hq ⊢
      exact h.flown.joined r f₀ hf₀ q hq

theorem Move.flown (hm : Move cfg p s s') (h : Inv cfg s) :
    Flown s'.notes s'.flights s'.inbox := by
  cases hm with
  | join hj => exact h.flown.join hj _
  | read hlive hr => exact h.flown_read hlive hr
  | @finish replica f res hf hr hres =>
    have hother : ∀ {r f'}, Function.update s.flights replica none r = some f' →
        s.flights r = some f' := by
      intro r f' hf'
      by_cases hrep : r = replica
      · simp [hrep] at hf'
      · simpa [Function.update_of_ne hrep] using hf'
    refine ⟨fun r f' hf' => h.flown.waiting r f' (hother hf'),
      fun r f' hf' => h.flown.joined r f' (hother hf'), fun q t hq => ?_⟩
    by_cases hmem : q ∈ f.callers
    · have hres' : res = .ok t := by simpa [hmem] using hq
      have hjoined := h.flown.joined replica f hf q hmem
      rw [hres t hres'] at hjoined
      exact hjoined
    · exact h.flown.delivered q t (by simpa [hmem] using hq)
  | _ => exact h.flown

theorem Inv.of_kept (h : Inv cfg s) (hlasts : Lasts s s')
    (hnotes : ∀ q, (s'.notes q).done = (s.notes q).done ∧
      (s'.notes q).started = (s.notes q).started)
    (hkept : ∀ q, (s.notes q).started = false → Kept q s s')
    (hsound : s'.cached.Sound Change.newer cfg.tombstoneTTL (fun t => s'.life.row = some t) ∧
      (s'.life = .unborn → s'.cached.writers = []))
    (hflown : Flown s'.notes s'.flights s'.inbox) : Inv cfg s' where
  sound := hsound.1
  unborn := hsound.2
  flown := hflown
  done q c hc := by
    rw [(hnotes q).1] at hc
    obtain ⟨w, hw, rfl, hexp⟩ := h.done q c hc
    obtain ⟨w', hw', hchange, hlast⟩ := hlasts w hw
    exact ⟨w', hw', hchange, hlast hexp⟩
  idle q hq := by
    have hq : (s.notes q).started = false := by rw [← (hnotes q).2]; exact hq
    exact (h.idle q hq).kept (hkept q hq)

theorem Move.inv (hm : Move cfg p s s') (h : Inv cfg s) (hp : (s.notes p).started = true) :
    Inv cfg s' := by
  refine h.of_kept hm.lasts hm.notes (fun q hq => hm.kept fun hpq => ?_) (hm.sound h) (hm.flown h)
  subst hpq
  simp [hp] at hq

end GolangBasics.Tasks.Cache
