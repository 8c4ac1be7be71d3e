import GolangBasics.Kafka.Rdkafka.Handle

/-! What a step of a call, of the loop or of a goroutine does to the consumer: which calls are
counted, which of them came before `Close`, and what the loop knows of its own progress. -/
namespace GolangBasics.Kafka.Rdkafka.Handle
open Conc List Option

namespace Pc

def counted : Pc → Nat
  | .pingCall | .pingInside | .pingDone | .commitSync _ | .commitSyncInside _ | .commitSyncDone _
  | .commitSpawn _ | .commitGo | .commitGoInside | .commitGoDone => 1
  | _ => 0

def early : Pc → Nat
  | .pingCall | .pingInside | .pingDone | .commitSpawn _ | .commitGo | .commitGoInside
  | .commitGoDone => 1
  | _ => 0

def looper : Pc → Nat
  | .idle | .pollCheck | .polling | .inPoll | .lost _ | .revoked _ | .commitCheck _ | .commitSync _
  | .commitSyncInside _ | .commitSyncDone _ | .commitSpawn _ | .commitWait _ | .closeCheck
  | .closeSpawn | .closeWait | .closeGiveUp | .closeBegin | .inClose | .closeMark | .closeRest => 1
  | _ => 0

def pinging : Pc → Bool
  | .pingCall | .pingInside => true
  | _ => false

def inside : Pc → Bool
  | .pingInside | .inPoll | .lost _ | .commitSyncInside _ | .commitGoInside => true
  | _ => false

def role (l : Pc) : Nat × Nat × Nat × Bool := (l.counted, l.looper, l.early, l.pinging)

end Pc

def Shared.commits (m : Shared) : Nat := m.starting.count .commit

/-- What the loop knows before, in `Poll`, and inside the client's close. -/
def Site.Knows (m : Shared) : Site → Prop
  | .loop => m.closing → m.closed
  | .poll => m.closing = false
  | .close => m.closing ∧ m.closed = false ∧ m.ending ∧ m.destroyed = false

def Knows (m : Shared) : Pc → Prop
  | .idle | .pollCheck | .closeCheck => Site.loop.Knows m
  | .polling | .inPoll => Site.poll.Knows m
  | .inClose => Site.close.Knows m
  | .lost w | .revoked w => w ≠ .loop ∧ w.Knows m
  | .commitCheck w => w.Knows m
  | .commitSync w | .commitSyncInside w | .commitSyncDone w => w = .close ∧ w.Knows m
  | .commitSpawn w | .commitWait w => w ≠ .close ∧ w.Knows m
  | .closeSpawn | .closeWait => m.closing ∧ m.closed = false ∧ m.ending = false
  | .closeGiveUp => m.waited = some false
  | .closeBegin => m.closing ∧ m.closed = false ∧ m.ending = false ∧ m.waited = some true
  | .closeMark => m.closing
  | .closeRest => m.closed
  | .waiter => m.closing
  | _ => True

structure Coherent (m : Shared) : Prop where
  ending : m.ending → m.waited = some true
  destroyed : m.destroyed → m.ending
  waited : m.waited ≠ none → m.closing
  waiter : .waiter ∈ m.starting → m.closing
  closed : m.closed → m.closing
  looping : m.closing → m.looping

structure SameFlags (m m' : Shared) : Prop where
  closing : m'.closing = m.closing
  closed : m'.closed = m.closed
  ending : m'.ending = m.ending
  destroyed : m'.destroyed = m.destroyed

theorem sameFlags_refl (m : Shared) : SameFlags m m := ⟨rfl, rfl, rfl, rfl⟩

structure Delta (m : Shared) (l l' : Pc) (m' : Shared) : Prop where
  calls : m'.calls + l.counted + m.commits = m.calls + l'.counted + m'.commits
  loops : m.looping.toNat + l'.looper ≤ m'.looping.toNat + l.looper
  early : m.closing → m'.commits + l'.early ≤ m.commits + l.early
  pings : m.closing → l'.pinging → l.pinging
  flags : l.looper = 0 → SameFlags m m'
  closing : m.closing → m'.closing
  waited : ∀ b, m.waited = some b → m'.waited = some b
  drained : m'.waited = some true → m.waited = some true ∨
    m.calls = 0 ∧ l'.early = 0 ∧ m'.commits = m.commits
  coherent : Coherent m'
  knows : Knows m' l'

variable {m m' : Shared} {l l' : Pc} {i : Nat} {x : Choice}

theorem delta_move (hc : Coherent m) (hcounted : l'.counted = l.counted)
    (hlooper : l'.looper ≤ l.looper) (hearly : l'.early ≤ l.early)
    (hpinging : l'.pinging → l.pinging) (hknows : Knows m l') : Delta m l l' m where
  calls := by rw [hcounted]
  loops := Nat.add_le_add_left hlooper _
  early _ := Nat.add_le_add_left hearly _
  pings _ := hpinging
  flags _ := sameFlags_refl m
  closing := id
  waited _ := id
  drained := .inl
  coherent := hc
  knows := hknows

theorem delta_alike (hc : Coherent m) (hrole : l'.role = l.role) (hknows : Knows m l') :
    Delta m l l' m := by
  simp only [Pc.role, Prod.mk.injEq] at hrole
  obtain ⟨hcounted, hlooper, hearly, hpinging⟩ := hrole
  exact delta_move hc hcounted hlooper.le hearly.le (fun h => hpinging ▸ h) hknows

/-- A call is counted. After `Close` has begun that is only the callback's commit. -/
theorem delta_add (hc : Coherent m) (hcounted : l.counted = 0) (hcounted' : l'.counted = 1)
    (hlooper : l'.looper = l.looper) (hearly : m.closing → l'.early = 0 ∧ l'.pinging = false)
    (hknows : Knows m l') : Delta m l l' m.add where
  calls := by
    show m.calls + 1 + l.counted + m.commits = m.calls + l'.counted + m.commits
    omega
  loops := le_of_eq (congrArg (m.looping.toNat + ·) hlooper)
  early hclosing := by
    show m.commits + l'.early ≤ m.commits + l.early
    rw [(hearly hclosing).1]
    omega
  pings hclosing hping := by simp [(hearly hclosing).2] at hping
  flags _ := ⟨rfl, rfl, rfl, rfl⟩
  closing := id
  waited _ := id
  drained := .inl
  coherent := ⟨hc.ending, hc.destroyed, hc.waited, hc.waiter, hc.closed, hc.looping⟩
  knows := by cases l' <;> exact hknows

theorem delta_done (hc : Coherent m) (hcalls : 1 ≤ m.calls) (hcounted : l.counted = 1)
    (hcounted' : l'.counted = 0) (hlooper : l'.looper = l.looper) (hearly : l'.early = 0)
    (hpinging : l'.pinging = false) (hknows : Knows m l') : Delta m l l' m.done where
  calls := by
    show m.calls - 1 + l.counted + m.commits = m.calls + l'.counted + m.commits
    omega
  loops := le_of_eq (congrArg (m.looping.toNat + ·) hlooper)
  early _ := by
    show m.commits + l'.early ≤ m.commits + l.early
    omega
  pings _ hping := by simp [hpinging] at hping
  flags _ := ⟨rfl, rfl, rfl, rfl⟩
  closing := id
  waited _ := id
  drained := .inl
  coherent := ⟨hc.ending, hc.destroyed, hc.waited, hc.waiter, hc.closed, hc.looping⟩
  knows := by cases l' <;> exact hknows

theorem delta_flag (hcounted : l'.counted = l.counted) (hlooper : l.looper = 1)
    (hlooper' : l'.looper = 1) (hearly : l'.early = l.early) (hpinging : l'.pinging = false)
    (hcalls : m'.calls = m.calls) (hstarting : m'.starting = m.starting)
    (hlooping : m'.looping = m.looping) (hwaited : m'.waited = m.waited)
    (hclosing : m.closing → m'.closing) (hcoherent : Coherent m') (hknows : Knows m' l') :
    Delta m l l' m' where
  calls := by
    have hcommits : m'.commits = m.commits := congrArg (List.count Goroutine.commit) hstarting
    omega
  loops := by
    rw [hlooping]
    omega
  early _ := by
    have hcommits : m'.commits = m.commits := congrArg (List.count Goroutine.commit) hstarting
    omega
  pings _ hping := by simp [hpinging] at hping
  flags hzero := by omega
  closing := hclosing
  waited b hb := hwaited.trans hb
  drained hb := .inl (hwaited.symm.trans hb)
  coherent := hcoherent
  knows := hknows

theorem delta_run {n : Nat} {g : Goroutine} (hc : Coherent m) (hg : m.starting[n]? = some g) :
    Delta m .goroutine g.pc { m with starting := m.starting.eraseIdx n } := by
  have hlt := (List.getElem?_eq_some_iff.mp hg).1
  have hcount : m.starting.count .commit =
      (m.starting.eraseIdx n).count .commit + if g = .commit then 1 else 0 := by
    have hperm := (getElem_cons_eraseIdx_perm hlt).count_eq .commit
    have hget : m.starting[n] = g := (List.getElem?_eq_some_iff.mp hg).2
    rw [count_cons, hget] at hperm
    rw [← hperm]
    cases g <;> rfl
  have hcoherent : Coherent { m with starting := m.starting.eraseIdx n } :=
    ⟨hc.ending, hc.destroyed, hc.waited, fun hin => hc.waiter (mem_of_mem_eraseIdx hin),
      hc.closed, hc.looping⟩
  cases g with
  | commit =>
    rw [if_pos rfl] at hcount
    refine ⟨?_, le_refl _, fun _ => ?_, fun _ h => h, fun _ => ⟨rfl, rfl, rfl, rfl⟩, id,
      fun _ => id, .inl, hcoherent, trivial⟩
    · show m.calls + 0 + m.starting.count .commit = m.calls + 1 + _
      simp only [Shared.commits]
      omega
    · show (m.starting.eraseIdx n).count .commit + 1 ≤ m.starting.count .commit + 0
      omega
  | waiter =>
    rw [if_neg (by decide)] at hcount
    have hclosing := hc.waiter (mem_of_getElem? hg)
    refine ⟨?_, le_refl _, fun _ => ?_, fun _ h => h, fun _ => ⟨rfl, rfl, rfl, rfl⟩, id,
      fun _ => id, .inl, hcoherent, hclosing⟩
    · show m.calls + 0 + m.starting.count .commit = m.calls + 0 + _
      simp only [Shared.commits]
      omega
    · show (m.starting.eraseIdx n).count .commit + 0 ≤ m.starting.count .commit + 0
      omega

theorem delta_spawn {w : Site} (hc : Coherent m) (hknows : Knows m (.commitSpawn w)) :
    Delta m (.commitSpawn w) (.commitWait w) { m with starting := m.starting ++ [.commit] } := by
  have hcount :
      (m.starting ++ [Goroutine.commit]).count .commit = m.starting.count .commit + 1 := by
    rw [count_append]
    rfl
  refine ⟨?_, le_refl _, fun _ => ?_, fun _ h => h, fun h => absurd h one_ne_zero, id,
    fun _ => id, .inl, ⟨hc.ending, hc.destroyed, hc.waited, fun hin => hc.waiter ?_,
      hc.closed, hc.looping⟩, hknows⟩
  · show m.calls + 1 + m.starting.count .commit = m.calls + 0 + _
    rw [Shared.commits, hcount]
    omega
  · show (m.starting ++ [Goroutine.commit]).count .commit + 0 ≤ m.starting.count .commit + 1
    omega
  · simpa using hin

theorem delta_wait (hc : Coherent m) (hknows : Knows m .closeSpawn) :
    Delta m .closeSpawn .closeWait { m with starting := m.starting ++ [.waiter] } := by
  have hcount : (m.starting ++ [Goroutine.waiter]).count .commit = m.starting.count .commit := by
    rw [count_append]
    rfl
  refine ⟨?_, le_refl _, fun _ => ?_, fun _ h => h, fun h => absurd h one_ne_zero, id,
    fun _ => id, .inl, ⟨hc.ending, hc.destroyed, hc.waited, fun _ => hknows.1, hc.closed,
      hc.looping⟩, hknows⟩
  · show m.calls + 0 + m.starting.count .commit = m.calls + 0 + _
    rw [Shared.commits, hcount]
  · show (m.starting ++ [Goroutine.waiter]).count .commit + 0 ≤ m.starting.count .commit + 0
    omega

theorem delta_drained (hc : Coherent m) (hclosing : m.closing) (hcalls : m.calls = 0) :
    Delta m .waiter .returned { m with waited := some (m.waited.getD true) } := by
  have hsticky : ∀ b, m.waited = some b → some (m.waited.getD true) = some b := by
    intro b hb
    rw [hb]
    rfl
  refine ⟨rfl, le_refl _, fun _ => le_refl _, fun _ h => h, fun _ => ⟨rfl, rfl, rfl, rfl⟩, id,
    hsticky, fun _ => .inr ⟨hcalls, rfl, rfl⟩,
    ⟨fun hending => hsticky true (hc.ending hending), hc.destroyed, fun _ => hclosing, hc.waiter,
      hc.closed, hc.looping⟩, trivial⟩

theorem knows_back {w : Site} (h : w.Knows m) : Knows m w.back := by
  cases w <;> exact h

theorem role_back (w : Site) : w.back.role = (0, 1, 0, false) := by
  cases w <;> rfl

theorem step_delta (hc : Coherent m) (hcalls : l.counted ≤ m.calls)
    (hloop : l.looper ≤ m.looping.toNat) (hknows : Knows m l)
    (h : step i l x m = some (l', m')) : Delta m l l' m' := by
  cases l <;> cases x <;> simp only [step, reduceCtorEq] at h
  any_goals cases h
  -- only the place changes
  case pingCall.go | idle.poll | idle.commit | idle.close | polling.go | inPoll.go | lost.go
      | commitSync.go | commitSyncInside.go | commitGo.go | commitGoInside.go =>
    exact delta_alike hc rfl hknows
  case pingCall.skip | pingInside.go => exact delta_move hc rfl le_rfl le_rfl (fun _ => rfl) trivial
  case idle.skip => exact delta_move hc rfl (Nat.zero_le _) le_rfl id trivial
  case inPoll.revoke | inClose.revoke => exact delta_alike hc rfl ⟨by decide, hknows⟩
  case revoked.commit => exact delta_alike hc rfl hknows.2
  case closeRest.go => exact delta_alike hc rfl fun _ => hknows
  case lost.skip | revoked.skip | commitWait.go => exact delta_alike hc (role_back _) (knows_back hknows.2)
  case ping.go => split_ifs <;> exact delta_alike hc rfl trivial
  case pollCheck.go =>
    split_ifs with hclosing
    · exact delta_alike hc rfl hknows
    · exact delta_alike hc rfl (Bool.eq_false_of_not_eq_true hclosing)
  case polling.skip =>
    refine delta_alike hc rfl fun hclosing => ?_
    simp_all [Knows, Site.Knows]
  case closeWait.go =>
    obtain ⟨b, hb, heq⟩ := map_eq_some_iff.mp h
    cases heq
    cases b with
    | true => exact delta_alike hc rfl ⟨hknows.1, hknows.2.1, hknows.2.2, hb⟩
    | false => exact delta_alike hc rfl hb
  -- the calls and the goroutines
  case pingCheck.go =>
    split_ifs at h with hgone <;> cases h
    · exact delta_alike hc rfl trivial
    · exact delta_add hc rfl rfl rfl (fun hclosing => absurd (.inl hclosing) hgone) trivial
  case commitCheck.go w =>
    split_ifs at h with hclosed hclosing <;> cases h
    · exact delta_alike hc (role_back _) (knows_back hknows)
    · refine delta_add hc rfl rfl rfl (fun _ => ⟨rfl, rfl⟩) ⟨?_, hknows⟩
      cases w with
      | loop => exact absurd (hknows hclosing) hclosed
      | poll => simp_all [Knows, Site.Knows]
      | close => rfl
    · refine delta_add hc rfl rfl rfl (fun hin => absurd hin hclosing) ⟨?_, hknows⟩
      rintro rfl
      exact hclosing hknows.1
  case pingDone.go | commitGoDone.go => exact delta_done hc hcalls rfl rfl rfl rfl rfl trivial
  case commitSyncDone.go w =>
    have hrole := role_back w
    simp only [Pc.role, Prod.mk.injEq] at hrole
    obtain ⟨hcounted, hlooper, hearly, hpinging⟩ := hrole
    exact delta_done hc hcalls rfl hcounted hlooper hearly hpinging (knows_back hknows.2)
  case commitSpawn.go => exact delta_spawn hc hknows
  case closeSpawn.go => exact delta_wait hc hknows
  case goroutine.pick =>
    obtain ⟨g, hg, heq⟩ := map_eq_some_iff.mp h
    cases heq
    exact delta_run hc hg
  case waiter.go =>
    split_ifs at h with hzero
    cases h
    exact delta_drained hc hknows hzero
  -- the flags
  case loop.go =>
    split_ifs at h with hlooping
    cases h
    have hopen : ¬ m.closing = true := fun hclosing => hlooping (hc.looping hclosing)
    refine ⟨rfl, ?_, fun _ => le_refl _, fun _ => id, fun _ => ⟨rfl, rfl, rfl, rfl⟩, id,
      fun _ => id, .inl, ⟨hc.ending, hc.destroyed, hc.waited, hc.waiter, hc.closed,
        fun _ => rfl⟩, fun hclosing => absurd hclosing hopen⟩
    rw [Bool.eq_false_of_not_eq_true hlooping]
    rfl
  case inPoll.fatal =>
    refine delta_flag rfl rfl rfl rfl rfl rfl rfl rfl rfl id
      ⟨hc.ending, hc.destroyed, hc.waited, hc.waiter, hc.closed, hc.looping⟩ fun hclosing => ?_
    simp_all [Knows, Site.Knows]
  case closeCheck.go =>
    split_ifs at h with hclosing <;> cases h
    · exact delta_alike hc rfl hknows
    · have hclosed : m.closed = false :=
        Bool.eq_false_of_not_eq_true fun hin => hclosing (hc.closed hin)
      have hending : m.ending = false :=
        Bool.eq_false_of_not_eq_true fun hin => hclosing (hc.waited (by simp [hc.ending hin]))
      have hlooping : m.looping = true := by
        by_contra hnot
        rw [Bool.eq_false_of_not_eq_true hnot] at hloop
        exact absurd hloop (by decide)
      exact delta_flag rfl rfl rfl rfl rfl rfl rfl rfl rfl (fun _ => rfl)
        ⟨hc.ending, hc.destroyed, fun _ => rfl, fun _ => rfl, fun _ => rfl, fun _ => hlooping⟩
        ⟨rfl, hclosed, hending⟩
  case closeGiveUp.go =>
    have hclosing : m.closing = true := hc.waited (by simp [show m.waited = _ from hknows])
    exact delta_flag rfl rfl rfl rfl rfl rfl rfl rfl rfl id
      ⟨hc.ending, hc.destroyed, hc.waited, hc.waiter, fun _ => hclosing, hc.looping⟩ fun _ => rfl
  case closeBegin.go =>
    obtain ⟨hclosing, hclosed, hending, hwaited⟩ := hknows
    have hdestroyed : m.destroyed = false :=
      Bool.eq_false_of_not_eq_true fun hin => by simp [hc.destroyed hin] at hending
    exact delta_flag rfl rfl rfl rfl rfl rfl rfl rfl rfl id
      ⟨fun _ => hwaited, fun _ => rfl, hc.waited, hc.waiter, hc.closed, hc.looping⟩
      ⟨hclosing, hclosed, rfl, hdestroyed⟩
  case inClose.go =>
    exact delta_flag rfl rfl rfl rfl rfl rfl rfl rfl rfl id
      ⟨hc.ending, fun _ => hknows.2.2.1, hc.waited, hc.waiter, hc.closed, hc.looping⟩ hknows.1
  case closeMark.go =>
    exact delta_flag rfl rfl rfl rfl rfl rfl rfl rfl rfl id
      ⟨hc.ending, hc.destroyed, hc.waited, hc.waiter, fun _ => hknows, hc.looping⟩ rfl

end GolangBasics.Kafka.Rdkafka.Handle
