import GolangBasics.Kafka.Rdkafka.Producer

/-! Who owes the close of a client: the producer as long as the client is in place, then the
replacement that took it out or the call of `Close` that found it. Every step of the producer
is stated as what it moves between these accounts, the lock's and the wait group's. -/
namespace GolangBasics.Kafka.Rdkafka.Producer
open Conc List Option

namespace Pc

def reads : Pc → Nat
  | .check _ | .inside _ _ | .rUnlock _ => 1
  | _ => 0

def writes : Pc → Nat
  | .startCheck _ | .startUnlock _ | .replaceCheck _ | .replaceCreate _ | .replaceSwap _ _
  | .replaceUnlock _ _ | .closeCheck | .closeUnlock _ => 1
  | _ => 0

def counted : Pc → Nat
  | .pumpLogs _ | .pumpEvents _ | .startLock _ | .startCheck _ | .startUnlock _
  | .replaceLock _ | .replaceCheck _ | .replaceCreate _ | .replaceSwap _ _ | .replaceUnlock _ _
  | .replaceClose _ | .replaceClosing _ | .replaceDone => 1
  | _ => 0

def closer : Pc → Nat
  | .closeUnlock (some _) | .flush _ | .flushing _ | .closeClient _ | .closingClient _ | .wait
  | .closed => 1
  | _ => 0

def owes (k : Nat) : Pc → Nat
  | .replaceSwap _ cl | .replaceUnlock cl true | .replaceClose cl | .closeUnlock (some cl)
  | .flush cl | .flushing cl | .closeClient cl => if cl = k then 1 else 0
  | _ => 0

def closes (k : Nat) : Pc → Nat
  | .replaceClosing cl | .closingClient cl => if cl = k then 1 else 0
  | _ => 0

def client : Pc → Option Nat
  | .inside _ cl | .flushing cl => some cl
  | _ => none

def account (l : Pc) : Nat × Nat × (Nat → Nat) × (Nat → Nat) :=
  (l.counted, l.closer, fun k => l.owes k, fun k => l.closes k)

theorem account_eq {l : Pc} {n c : Nat} {owes closes : Nat → Nat} :
    l.account = (n, c, owes, closes) ↔
      l.counted = n ∧ l.closer = c ∧ (∀ k, l.owes k = owes k) ∧ ∀ k, l.closes k = closes k := by
  simp only [account, Prod.mk.injEq, funext_iff]

end Pc

namespace Shared

def begun (m : Shared) (k : Nat) : Nat := m.clients[k]?.elim 0 Client.begun

def ended (m : Shared) (k : Nat) : Nat := m.clients[k]?.elim 0 Client.ended

def created (m : Shared) (k : Nat) : Nat := if k < m.clients.length then 1 else 0

/-- The client is in place, and the producer owes its close. -/
def current (m : Shared) (k : Nat) : Nat := if m.closed = false ∧ m.cl = k then 1 else 0

variable (m : Shared) (k cl : Nat)

theorem created_begin : (m.begin cl).created k = m.created k := by
  simp [created, Shared.begin]

theorem created_finish : (m.finish cl).created k = m.created k := by
  simp [created, Shared.finish]

theorem created_newClient :
    m.newClient.created k = m.created k + if m.clients.length = k then 1 else 0 := by
  simp only [created, newClient, length_append, length_singleton]
  split_ifs <;> omega

theorem elim_append {cs : List Client} {f : Client → Nat} (hf : f ⟨0, 0⟩ = 0) :
    (cs ++ [⟨0, 0⟩])[k]?.elim 0 f = cs[k]?.elim 0 f := by
  rcases Nat.lt_trichotomy k cs.length with h | rfl | h
  · rw [List.getElem?_append_left h]
  · simp [hf]
  · have hlen : (cs ++ [(⟨0, 0⟩ : Client)]).length ≤ k := by
      rw [length_append, length_singleton]
      omega
    rw [List.getElem?_eq_none hlen, List.getElem?_eq_none (by omega)]

theorem elim_modify {cs : List Client} {f : Client → Nat} {g : Client → Client} {n : Nat}
    (hg : ∀ c, f (g c) = f c + n) (h : cl < cs.length ∨ n = 0) :
    (cs.modify cl g)[k]?.elim 0 f = cs[k]?.elim 0 f + if cl = k then n else 0 := by
  rw [List.getElem?_modify]
  by_cases hk : cl = k
  · subst hk
    cases hc : cs[cl]? with
    | none =>
      have := List.getElem?_eq_none_iff.mp hc
      simp only [if_pos, Option.map_eq_map, map_none, elim_none]
      omega
    | some c => simp [hg]
  · simp [hk]

theorem begun_newClient : m.newClient.begun k = m.begun k := elim_append k rfl

theorem ended_newClient : m.newClient.ended k = m.ended k := elim_append k rfl

theorem ended_begin : (m.begin cl).ended k = m.ended k := by
  have h : (m.begin cl).ended k = m.ended k + if cl = k then 0 else 0 :=
    elim_modify k cl (fun _ => rfl) (.inr rfl)
  simpa using h

theorem begun_finish : (m.finish cl).begun k = m.begun k := by
  have h : (m.finish cl).begun k = m.begun k + if cl = k then 0 else 0 :=
    elim_modify k cl (fun _ => rfl) (.inr rfl)
  simpa using h

variable {m cl}

theorem begun_begin (h : cl < m.clients.length) :
    (m.begin cl).begun k = m.begun k + if cl = k then 1 else 0 :=
  elim_modify k cl (fun _ => rfl) (.inl h)

theorem ended_finish (h : cl < m.clients.length) :
    (m.finish cl).ended k = m.ended k + if cl = k then 1 else 0 :=
  elim_modify k cl (fun _ => rfl) (.inl h)

end Shared

def Knows (m : Shared) : Pc → Prop
  | .inside _ cl | .replaceCreate cl => m.closed = false ∧ m.cl = cl
  | .replaceSwap failed _ => m.closed = false ∧ m.cl = failed
  | .closed => ∀ k, m.ended k = m.created k
  | _ => True

structure Delta (m : Shared) (l l' : Pc) (m' : Shared) : Prop where
  held : ∀ r w, m.mu.Held (r + l.reads) (w + l.writes) → m'.mu.Held (r + l'.reads) (w + l'.writes)
  wg : m'.wg + l.counted + m.starting.length = m.wg + l'.counted + m'.starting.length
  closer : m'.closed.toNat + l.closer = m.closed.toNat + l'.closer
  owes : ∀ k, m'.begun k + l'.owes k + m'.current k + m.created k =
    m.begun k + l.owes k + m.current k + m'.created k
  closes : ∀ k, m'.begun k + l.closes k + m.ended k = m.begun k + l'.closes k + m'.ended k
  still : l.writes = 0 → m'.cl = m.cl ∧ m'.closed = m.closed
  ended : ∀ k, m.ended k ≤ m'.ended k
  created : m.closed → m'.clients.length = m.clients.length
  closed : m.closed → m'.closed

structure Fits (m : Shared) (l : Pc) : Prop where
  counted : l.counted ≤ m.wg
  owes : ∀ k, l.owes k ≤ m.created k
  closes : ∀ k, l.closes k ≤ m.created k
  knows : Knows m l

variable {m m' : Shared} {l l' : Pc} {i : Nat} {x : Choice}

theorem delta_lock {mu : RWMutex}
    (hheld : ∀ r w, m.mu.Held (r + l.reads) (w + l.writes) → mu.Held (r + l'.reads) (w + l'.writes))
    (haccount : l'.account = l.account) : Delta m l l' { m with mu } := by
  obtain ⟨hcounted, hcloser, howes, hcloses⟩ := Pc.account_eq.mp haccount
  refine ⟨hheld, ?_, ?_, fun k => ?_, fun k => ?_, fun _ => ⟨rfl, rfl⟩,
    fun _ => le_refl _, fun _ => rfl, id⟩
  · show m.wg + l.counted + _ = _
    rw [hcounted]
  · show m.closed.toNat + l.closer = _
    rw [hcloser]
  · show m.begun k + l'.owes k + m.current k + m.created k = _
    rw [howes]
    rfl
  · show m.begun k + l.closes k + _ = _
    rw [hcloses]
    rfl

theorem delta_move (hlock : (l'.reads, l'.writes) = (l.reads, l.writes))
    (haccount : l'.account = l.account) : Delta m l l' m := by
  obtain ⟨hreads, hwrites⟩ := Prod.mk.inj hlock
  exact delta_lock (fun r w h => by rwa [hreads, hwrites]) haccount

theorem delta_done (hwg : 1 ≤ m.wg) (hlock : (l.reads, l.writes) = (0, 0))
    (haccount : l.account = (1, 0, fun _ => 0, fun _ => 0)) : Delta m l .returned m.done := by
  obtain ⟨hcounted, hcloser, howes, hcloses⟩ := Pc.account_eq.mp haccount
  obtain ⟨hreads, hwrites⟩ := Prod.mk.inj hlock
  refine ⟨fun r w h => ?_, ?_, ?_, fun k => ?_, fun k => ?_, fun _ => ⟨rfl, rfl⟩,
    fun _ => le_refl _, fun _ => rfl, id⟩
  · rwa [hreads, hwrites] at h
  · show m.wg - 1 + l.counted + m.starting.length = m.wg + 0 + m.starting.length
    omega
  · rw [hcloser]
    rfl
  · rw [howes]
    rfl
  · rw [hcloses]
    rfl

section close

variable {cl n c : Nat} (hcl : cl < m.clients.length)
  (hlock : (l'.reads, l'.writes) = (l.reads, l.writes))
include hcl hlock

theorem delta_begin (h : l.account = (n, c, fun k => if cl = k then 1 else 0, fun _ => 0))
    (h' : l'.account = (n, c, fun _ => 0, fun k => if cl = k then 1 else 0)) :
    Delta m l l' (m.begin cl) := by
  obtain ⟨hcounted, hcloser, howes, hcloses⟩ := Pc.account_eq.mp h
  obtain ⟨hcounted', hcloser', howes', hcloses'⟩ := Pc.account_eq.mp h'
  obtain ⟨hreads, hwrites⟩ := Prod.mk.inj hlock
  refine ⟨fun r w h => ?_, ?_, ?_, fun k => ?_, fun k => ?_, fun _ => ⟨rfl, rfl⟩,
    fun k => ?_, fun _ => length_modify _ _ _, id⟩
  · rwa [hreads, hwrites]
  · rw [hcounted, hcounted']
    rfl
  · rw [hcloser, hcloser']
    rfl
  · have hcurrent : (m.begin cl).current k = m.current k := rfl
    rw [Shared.begun_begin k hcl, howes, howes', hcurrent, Shared.created_begin]
    omega
  · rw [Shared.begun_begin k hcl, Shared.ended_begin, hcloses, hcloses']
    omega
  · rw [Shared.ended_begin]

theorem delta_finish (h : l.account = (n, c, fun _ => 0, fun k => if cl = k then 1 else 0))
    (h' : l'.account = (n, c, fun _ => 0, fun _ => 0)) : Delta m l l' (m.finish cl) := by
  obtain ⟨hcounted, hcloser, howes, hcloses⟩ := Pc.account_eq.mp h
  obtain ⟨hcounted', hcloser', howes', hcloses'⟩ := Pc.account_eq.mp h'
  obtain ⟨hreads, hwrites⟩ := Prod.mk.inj hlock
  refine ⟨fun r w h => ?_, ?_, ?_, fun k => ?_, fun k => ?_, fun _ => ⟨rfl, rfl⟩,
    fun k => ?_, fun _ => length_modify _ _ _, id⟩
  · rwa [hreads, hwrites]
  · rw [hcounted, hcounted']
    rfl
  · rw [hcloser, hcloser']
    rfl
  · have hcurrent : (m.finish cl).current k = m.current k := rfl
    rw [Shared.begun_finish, howes, howes', hcurrent, Shared.created_finish]
  · rw [Shared.begun_finish, Shared.ended_finish k hcl, hcloses, hcloses']
    omega
  · rw [Shared.ended_finish k hcl]
    exact Nat.le_add_right _ _

end close

/-- `newClient` under the lock: the new client is the thread's to put in place. -/
theorem delta_newClient {failed : Nat} (hopen : m.closed = false) :
    Delta m (.replaceCreate failed) (.replaceSwap failed m.clients.length) m.newClient := by
  refine ⟨fun r w h => h, ?_, rfl, fun k => ?_, fun k => ?_, fun h => absurd h one_ne_zero,
    fun k => ?_, fun h => ?_, fun h => ?_⟩
  · simp only [Shared.newClient, length_append, length_cons, length_nil, Pc.counted]
    omega
  · have hcurrent : m.newClient.current k = m.current k := rfl
    rw [Shared.begun_newClient, Shared.created_newClient, hcurrent]
    simp only [Pc.owes]
    omega
  · rw [Shared.begun_newClient, Shared.ended_newClient]
    rfl
  · rw [Shared.ended_newClient]
  · simp [hopen] at h
  · simp [hopen] at h

/-- The new client is in place and the old one is the thread's to close. -/
theorem delta_swap {failed cl : Nat} (hopen : m.closed = false) (hcl : m.cl = failed) :
    Delta m (.replaceSwap failed cl) (.replaceUnlock failed true) { m with cl } := by
  refine ⟨fun r w h => h, rfl, rfl, fun k => ?_, fun k => rfl, fun h => absurd h one_ne_zero,
    fun _ => le_refl _, fun _ => rfl, id⟩
  show m.begun k + _ + _ + m.created k = m.begun k + _ + _ + m.created k
  simp only [Shared.current, Pc.owes, hopen, hcl, true_and]
  omega

/-- `Close` marks the producer closed and takes over its client. -/
theorem delta_close (hopen : m.closed = false) :
    Delta m .closeCheck (.closeUnlock (some m.cl)) { m with closed := true } := by
  refine ⟨fun r w h => h, rfl, ?_, fun k => ?_, fun k => rfl, fun h => absurd h one_ne_zero,
    fun _ => le_refl _, fun _ => rfl, fun _ => rfl⟩
  · rw [hopen]
    rfl
  · show m.begun k + _ + _ + m.created k = m.begun k + _ + _ + m.created k
    simp [Shared.current, Pc.owes, hopen]

theorem delta_start (failed : Nat) : Delta m (.startCheck failed) (.startUnlock failed)
    { m with wg := m.wg + 1, starting := m.starting ++ [.replace failed] } := by
  refine ⟨fun r w h => h, ?_, rfl, fun k => rfl, fun k => rfl, fun _ => ⟨rfl, rfl⟩,
    fun _ => le_refl _, fun _ => rfl, id⟩
  simp only [length_append, length_singleton, Pc.counted]
  omega

theorem delta_run {n : Nat} {g : Goroutine} (hg : m.starting[n]? = some g) :
    Delta m .goroutine g.pc { m with starting := m.starting.eraseIdx n } := by
  have hlt := (List.getElem?_eq_some_iff.mp hg).1
  have hlen := length_eraseIdx_of_lt hlt
  have hwg : m.wg + 0 + m.starting.length = m.wg + 1 + (m.starting.eraseIdx n).length := by omega
  cases g <;> exact ⟨fun r w h => h, hwg, rfl, fun k => rfl, fun k => rfl, fun _ => ⟨rfl, rfl⟩,
    fun _ => le_refl _, fun _ => rfl, id⟩

theorem Shared.lt_of_created {k : Nat} (h : (if k = k then 1 else 0) ≤ m.created k) :
    k < m.clients.length := by
  by_contra hlt
  rw [if_pos rfl, Shared.created, if_neg hlt] at h
  omega

theorem step_delta (hfits : Fits m l) (h : step i l x m = some (l', m')) : Delta m l l' m' := by
  cases l
  case check k =>
    cases k <;> cases x <;> simp only [step, reduceCtorEq] at h <;> cases h
    · split_ifs <;> exact delta_move rfl rfl
    · split_ifs <;> exact delta_move rfl rfl
    · exact delta_move rfl rfl
  case inside k cl =>
    cases k <;> cases x <;> simp only [step, reduceCtorEq] at h <;> cases h <;>
      exact delta_move rfl rfl
  all_goals cases x <;> simp only [step, reduceCtorEq] at h
  any_goals cases h
  -- only the place changes
  case waitRoom.go | waitRoom.over | pumpEvents.fatal | replaceCreate.fail | flush.go | flushing.go =>
    exact delta_move rfl rfl
  case replaceCheck.go => split_ifs <;> exact delta_move rfl rfl
  case wait.go =>
    split_ifs at h
    cases h
    exact delta_move rfl rfl
  -- the lock
  case rLock.go =>
    obtain ⟨mu, hmu, heq⟩ := map_eq_some_iff.mp h
    cases heq
    exact delta_lock (fun r w hheld => hheld.rLock hmu) rfl
  case startLock.go | replaceLock.go | closeLock.go =>
    obtain ⟨mu, hmu, heq⟩ := map_eq_some_iff.mp h
    cases heq
    exact delta_lock (fun r w hheld => hheld.lock hmu) rfl
  case rUnlock.go full => cases full <;> exact delta_lock (fun r w hheld => hheld.rUnlock) rfl
  case startUnlock.go => exact delta_lock (fun r w hheld => hheld.unlock) rfl
  case replaceUnlock.go swapped =>
    cases swapped <;> exact delta_lock (fun r w hheld => hheld.unlock) rfl
  case closeUnlock.go cl => cases cl <;> exact delta_lock (fun r w hheld => hheld.unlock) rfl
  -- the goroutines
  case goroutine.pick =>
    obtain ⟨g, hg, heq⟩ := map_eq_some_iff.mp h
    cases heq
    exact delta_run hg
  case startCheck.go failed =>
    split_ifs
    · exact delta_move rfl rfl
    · exact delta_start failed
  case pumpLogs.drained | pumpEvents.drained =>
    split_ifs at h
    cases h
    exact delta_done hfits.counted rfl rfl
  case replaceDone.go => exact delta_done hfits.counted rfl rfl
  -- the clients
  case replaceCreate.go => exact delta_newClient hfits.knows.1
  case replaceSwap.go => exact delta_swap hfits.knows.1 hfits.knows.2
  case closeCheck.go =>
    split_ifs at h with hclosed <;> cases h
    · exact delta_move rfl rfl
    · exact delta_close (by simpa using hclosed)
  case replaceClose.go cl | closeClient.go cl =>
    exact delta_begin (Shared.lt_of_created (hfits.owes cl)) rfl rfl rfl
  case replaceClosing.go cl | closingClient.go cl =>
    exact delta_finish (Shared.lt_of_created (hfits.closes cl)) rfl rfl rfl

end GolangBasics.Kafka.Rdkafka.Producer
