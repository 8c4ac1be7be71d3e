import GolangBasics.Resilient.Accounts

/-! What an operation of a call of `Send` or `Close` does to the shared state and to the
account of the call. Every invariant of the client is read off this. -/
namespace GolangBasics.Resilient
open Conc List Option

def Account.inside (a : Account) : Nat :=
  if a.phase = .counted ∨ a.phase = .admitted ∨ a.phase = .refused then 1 else 0

def Account.has (target : String) (a : Account) : Nat := if a.slot = some target then 1 else 0

def Account.gave (body : Nat) (a : Account) : Nat := if a.phase = .handed body then 1 else 0

def Account.runs (body : Nat) (a : Account) : Nat := if a.body = some body then 1 else 0

def Body.isOpen (b : Body) : Nat := if b.once = .ready then 1 else 0

def Body.has (target : String) (b : Body) : Nat :=
  if b.once = .ready ∧ b.policy.slot = some target then 1 else 0

def ClientState.openBodies (m : ClientState) : Nat := (m.bodies.map Body.isOpen).sum

def ClientState.heldBy (m : ClientState) (target : String) : Nat :=
  (m.bodies.map (Body.has target)).sum

def ClientState.given (m : ClientState) (body : Nat) : Nat :=
  if body < m.bodies.length then 1 else 0

def ClientState.running (m : ClientState) (body : Nat) : Nat :=
  if m.bodies[body]?.map Body.once = some .running then 1 else 0

def Account.pending (a : Account) : Prop := a.phase = .last ∨ a.phase = .signalling

instance (a : Account) : Decidable a.pending := inferInstanceAs (Decidable (_ ∨ _))

structure Moves (cl : Client) (m : ClientState) (a : Account) (m' : ClientState) (a' : Account) :
    Prop where
  count : m'.inFlight + a.inside + m.openBodies = m.inFlight + a'.inside + m'.openBodies
  slots : ∀ t, m'.slots t + a.has t + m.heldBy t = m.slots t + a'.has t + m'.heldBy t
  given : ∀ id, a'.gave id + m.given id = a.gave id + m'.given id
  running : ∀ id, a'.runs id + m.running id = a.runs id + m'.running id
  room : ∀ t, m'.slots t ≤ m.slots t ∨ m'.slots t ≤ cl.capacity t
  closing : m'.closing = m.closing
  admits : m.closing → a'.phase = .admitted → a.phase = .admitted ∨ 0 < m.openBodies
  opens : m'.openBodies ≤ m.openBodies + if a.phase = .admitted then 1 else 0
  wakes : m.closing → 0 ≤ m.inFlight → 0 < m.inFlight ∨ m.idle ∨ a.pending →
    0 < m'.inFlight ∨ m'.idle ∨ a'.pending

variable {cl : Client} {m m' : ClientState} {a a' : Account}

theorem moves_same (hphase : a'.phase = a.phase) (hslot : a'.slot = a.slot)
    (hbody : a'.body = a.body) : Moves cl m a m a' := by
  constructor
  · simp [Account.inside, hphase]
  · intro t
    simp [Account.has, hslot]
  · intro id
    simp [Account.gave, hphase]
  · intro id
    simp [Account.runs, hbody]
  · exact fun t => .inl (le_refl _)
  · rfl
  · exact fun _ h => .inl (hphase ▸ h)
  · exact Nat.le_add_right _ _
  · intro _ _ h
    rwa [Account.pending, hphase]

theorem moves_phase (ph : Phase) (n : Int) (idle : Bool)
    (hcount : n + a.inside = m.inFlight + ({ a with phase := ph } : Account).inside)
    (hold : ∀ id, a.phase ≠ .handed id) (hnew : ∀ id, ph ≠ .handed id)
    (hadmits : m.closing → ph = .admitted → a.phase = .admitted)
    (hwake : m.closing → 0 ≤ m.inFlight → 0 < m.inFlight ∨ m.idle ∨ a.pending →
      0 < n ∨ idle ∨ ph = .last ∨ ph = .signalling) :
    Moves cl m a { m with inFlight := n, idle := idle } { a with phase := ph } := by
  constructor
  · simp only [ClientState.openBodies]
    omega
  · intro t
    rfl
  · intro id
    simp [Account.gave, hold, hnew, ClientState.given]
  · intro id
    rfl
  · exact fun t => .inl (le_refl _)
  · rfl
  · exact fun hc h => .inl (hadmits hc h)
  · exact Nat.le_add_right _ _
  · exact hwake

theorem increment_moves {n : Int} (ha : Account.after .increment n a = some a') :
    Moves cl m a { m with inFlight := m.inFlight + 1 } a' := by
  simp only [Account.after] at ha
  split at ha
  · rename_i hphase
    cases ha
    refine moves_phase .counted (m.inFlight + 1) m.idle ?_ (by simp [hphase]) (by simp) (by simp) ?_
    · simp [Account.inside, hphase]
    · intro _ hnonneg _
      exact .inl (by omega)
  · cases ha

theorem decrement_moves (ha : Account.after .decrement (m.inFlight - 1) a = some a') :
    Moves cl m a { m with inFlight := m.inFlight - 1 } a' := by
  simp only [Account.after] at ha
  split at ha
  · rename_i hphase
    cases ha
    refine moves_phase _ (m.inFlight - 1) m.idle ?_ ?_ ?_ ?_ ?_
    · rcases hphase with hphase | hphase <;> split <;> simp [Account.inside, hphase]
    · rcases hphase with hphase | hphase <;> simp [hphase]
    · split <;> simp
    · split <;> simp
    · intro _ _ h
      have hnot : ¬a.pending := by
        rcases hphase with hphase | hphase <;> simp [Account.pending, hphase]
      rcases h with hpos | hidle | hpending
      · by_cases hlast : m.inFlight - 1 = 0
        · simp [hlast]
        · exact .inl (by omega)
      · exact .inr (.inl hidle)
      · exact absurd hpending hnot
  · cases ha

theorem closing_moves (ha : Account.after .closing m.closing a = some a') : Moves cl m a m a' := by
  simp only [Account.after] at ha
  split at ha
  · rename_i hphase
    cases ha
    refine moves_phase _ m.inFlight m.idle ?_ (by simp [hphase]) ?_ ?_ ?_
    · split <;> simp [Account.inside, hphase]
    · split <;> simp
    · intro hclosing
      simp [hclosing]
    · intro _ _ h
      obtain hpos | hidle | hpending := h
      · exact .inl hpos
      · exact .inr (.inl hidle)
      · simp [Account.pending, hphase] at hpending
  · rename_i hphase
    cases ha
    refine moves_phase _ m.inFlight m.idle ?_ (by simp [hphase]) ?_ ?_ ?_
    · split <;> simp [Account.inside, hphase]
    · split <;> simp
    · split <;> simp
    · intro hclosing
      simp [hclosing]
  · cases ha

theorem signal_moves {u : Unit} (ha : Account.after .signal u a = some a') :
    Moves cl m a { m with idle := true } a' := by
  simp only [Account.after] at ha
  split at ha
  · rename_i hphase
    cases ha
    exact moves_phase .gone m.inFlight true (by simp [Account.inside, hphase]) (by simp [hphase])
      (by simp) (by simp) (by simp)
  · cases ha

variable {target : String}

theorem moves_slot {n : Nat} {slot : Option String}
    (hcount : n + a.has target = m.slots target + ({ a with slot := slot } : Account).has target)
    (hother : ∀ t, t ≠ target → a.slot ≠ some t ∧ slot ≠ some t)
    (hroom : n ≤ m.slots target ∨ n ≤ cl.capacity target) :
    Moves cl m a { m with slots := Function.update m.slots target n } { a with slot := slot } := by
  constructor
  · rfl
  · intro t
    by_cases ht : t = target
    · subst ht
      simp only [Function.update_self, ClientState.heldBy]
      omega
    · obtain ⟨hold, hnew⟩ := hother t ht
      simp [Function.update_of_ne ht, Account.has, hold, hnew, ClientState.heldBy]
  · intro id
    rfl
  · intro id
    rfl
  · intro t
    by_cases ht : t = target
    · subst ht
      simpa using hroom
    · simp [Function.update_of_ne ht]
  · rfl
  · exact fun _ h => .inl h
  · exact Nat.le_add_right _ _
  · exact fun _ _ h => h

theorem take_moves (hslot : a.slot = none) (hroom : m.slots target < cl.capacity target) :
    Moves cl m a (m.take target) { a with slot := some target } :=
  moves_slot (by simp [Account.has, hslot]) (fun t ht => by simp [hslot, Ne.symm ht]) (.inr hroom)

theorem free_moves (hslot : a.slot = some target) (hpos : 0 < m.slots target) :
    Moves cl m a (m.free target) { a with slot := none } := by
  refine moves_slot ?_ (fun t ht => by simp [hslot, Ne.symm ht]) (.inl (Nat.sub_le _ _))
  have hless : m.slots target - 1 + 1 = m.slots target := by omega
  simpa [Account.has, hslot] using hless

theorem running_append {b : Body} (hb : b.once ≠ .running) (id : Nat) :
    ({ m with bodies := m.bodies ++ [b] } : ClientState).running id = m.running id := by
  unfold ClientState.running
  by_cases hlt : id < m.bodies.length
  · simp only [List.getElem?_append_left hlt]
  · have hnone : m.bodies[id]? = none := List.getElem?_eq_none (by omega)
    have hlast : ∀ k : Nat, [b][k]?.map Body.once ≠ some .running := by
      intro k
      cases k <;> simp [hb]
    simp only [List.getElem?_append_right (not_lt.mp hlt), hnone, hlast, if_false]
    simp

/-- A response takes over what its call holds. -/
theorem newBody_moves {p : Policy} (ha : Account.after (.newBody p) m.bodies.length a = some a') :
    Moves cl m a { m with bodies := m.bodies ++ [⟨p, .ready⟩] } a' := by
  simp only [Account.after] at ha
  split at ha
  · rename_i hholding
    cases ha
    subst hholding
    constructor
    · simp [Account.inside, Policy.holding, ClientState.openBodies, Body.isOpen]
      omega
    · intro t
      by_cases hp : p.slot = some t <;>
        simp [Account.has, Policy.holding, ClientState.heldBy, Body.has, hp]
      omega
    · intro id
      simp only [Account.gave, Policy.holding, ClientState.given, length_append,
        length_singleton, Phase.handed.injEq, reduceCtorEq, if_false]
      split <;> split <;> split <;> omega
    · intro id
      rw [running_append (by simp)]
      rfl
    · exact fun t => .inl (le_refl _)
    · rfl
    · simp
    · simp [ClientState.openBodies, Body.isOpen, Policy.holding]
    · simp [Account.pending, Policy.holding]
  · cases ha

variable {id : Nat}

theorem bodies_set {b : Body} (hb : m.bodies[id]? = some b) (once : Once) :
    (m.setOnce id b once).openBodies + b.isOpen =
        m.openBodies + ({ b with once := once } : Body).isOpen ∧
      (∀ t, (m.setOnce id b once).heldBy t + b.has t =
        m.heldBy t + ({ b with once := once } : Body).has t) ∧
      (∀ j, (m.setOnce id b once).given j = m.given j) ∧
      ∀ j, (m.setOnce id b once).running j =
        if j = id then (if once = .running then 1 else 0) else m.running j := by
  refine ⟨sum_map_set hb, fun t => sum_map_set hb, fun j => ?_, fun j => ?_⟩
  · simp [ClientState.given, ClientState.setOnce]
  · have hlt := (List.getElem?_eq_some_iff.mp hb).1
    by_cases hj : j = id
    · subst hj
      simp [ClientState.running, ClientState.setOnce, hlt]
    · simp [ClientState.running, ClientState.setOnce, List.getElem?_set_ne (Ne.symm hj), hj]

/-- An operation on the `once` of one body: what the body gives up goes to the call. -/
theorem moves_setOnce {b : Body} {once : Once} (hb : m.bodies[id]? = some b)
    (hopen : a'.inside + ({ b with once := once } : Body).isOpen = a.inside + b.isOpen)
    (hheld : ∀ t, a'.has t + ({ b with once := once } : Body).has t = a.has t + b.has t)
    (hgave : ∀ j, a'.gave j = a.gave j)
    (hruns : ∀ j, a'.runs j + (if j = id ∧ b.once = .running then 1 else 0) =
      a.runs j + if j = id ∧ once = .running then 1 else 0) (hadmits : a'.phase = .admitted →
      a.phase = .admitted ∨ ({ b with once := once } : Body).isOpen < b.isOpen)
    (hcloses : ({ b with once := once } : Body).isOpen ≤ b.isOpen)
    (hpending : a.pending → a'.pending) : Moves cl m a (m.setOnce id b once) a' := by
  obtain ⟨hopenSet, hheldSet, hgivenSet, hrunningSet⟩ := bodies_set hb once
  constructor
  · show m.inFlight + _ + _ = _
    omega
  · intro t
    have ht := hheldSet t
    have ht' := hheld t
    show m.slots t + _ + _ = _
    omega
  · intro j
    rw [hgivenSet, hgave]
  · intro j
    have hj := hruns j
    rw [hrunningSet]
    by_cases hid : j = id
    · subst hid
      have hwas : m.running j = if b.once = .running then 1 else 0 := by
        simp [ClientState.running, hb]
      simpa [hwas] using hj
    · simpa [hid] using hj
  · exact fun t => .inl (le_refl _)
  · rfl
  · intro _ hphase
    exact (hadmits hphase).imp_right fun _ => by omega
  · omega
  · intro _ _ h
    exact h.imp_right (Or.imp_right hpending)

/-- The first `Close` takes over what the body holds. -/
theorem onceDo_moves {p : Policy} (hb : m.bodies[id]? = some ⟨p, .ready⟩)
    (ha : Account.after (.onceDo id) (some p) a = some a') :
    Moves cl m a (m.setOnce id ⟨p, .ready⟩ .running) a' := by
  simp only [Account.after] at ha
  split at ha
  · rename_i hempty
    cases ha
    subst hempty
    apply moves_setOnce hb
    · simp [Account.inside, Policy.holding, Body.isOpen]
    · intro t
      by_cases hp : p.slot = some t <;> simp [Account.has, Policy.holding, Body.has, hp]
    · intro j
      simp [Account.gave, Policy.holding]
    · intro j
      simp [Account.runs, eq_comm]
    · simp [Body.isOpen]
    · simp [Body.isOpen]
    · simp [Account.pending]
  · cases ha

theorem onceDone_moves {b : Body} {u : Unit} (hb : m.bodies[id]? = some b)
    (hrun : b.once = .running) (ha : Account.after (.onceDone id) u a = some a') :
    Moves cl m a (m.setOnce id b .done) a' := by
  simp only [Account.after] at ha
  split at ha
  · rename_i hgone
    cases ha
    subst hgone
    apply moves_setOnce hb
    · simp [Account.inside, Body.isOpen, hrun]
    · intro t
      simp [Account.has, Body.has, hrun]
    · intro j
      rfl
    · intro j
      simp [Account.runs, hrun, eq_comm]
    · simp
    · simp [Body.isOpen]
    · exact fun h => h
  · cases ha

theorem running_eq_one (h : m.running id = 1) :
    ∃ b, m.bodies[id]? = some b ∧ b.once = .running := by
  unfold ClientState.running at h
  split at h
  · rename_i hrun
    obtain ⟨b, hb, hrun⟩ := map_eq_some_iff.mp hrun
    exact ⟨b, hb, hrun⟩
  · cases h

/-- What an operation of a call can do, one case for each. -/
theorem op_moves {op : Op} {x : Answer} {reply : op.Rep}
    (hrun : ∀ id, a.body = some id → m.running id = 1)
    (h : cl.answer m op x = some (reply, m')) (ha : Account.after op reply a = some a') :
    Moves cl m a m' a' := by
  cases op with
  | callerErr | attemptErr | budgetRequest t | tryRetry t | limit t | getBody | roundTrip t n b
  | parseRetryAfter hd | readBody | fullJitter n b c | untilDeadline | sleep d =>
    cases x <;> cases h
    cases ha
    exact moves_same rfl rfl rfl
  | withTimeout | cancel | allow t | record t k o =>
    cases x <;> cases h
    simp only [Account.after] at ha
    split at ha <;> cases ha
    exact moves_same rfl rfl rfl
  | increment =>
    cases x <;> cases h
    exact increment_moves ha
  | decrement =>
    cases x <;> cases h
    exact decrement_moves ha
  | closing =>
    cases x <;> cases h
    exact closing_moves ha
  | signal =>
    cases x <;> cases h
    exact signal_moves ha
  | trySlot target =>
    cases x <;> simp only [Client.answer, reduceCtorEq] at h
    simp only [Account.after] at ha
    split at ha <;> cases ha
    split at h <;> cases h
    · exact take_moves ‹_› ‹_›
    · exact moves_same rfl rfl rfl
  | awaitSlot target =>
    simp only [Account.after] at ha
    split at ha <;> cases ha
    cases x <;> simp only [Client.answer, reduceCtorEq] at h
    · split at h <;> cases h
      exact take_moves ‹_› ‹_›
    · cases h
      exact moves_same rfl rfl rfl
  | freeSlot target =>
    cases x <;> simp only [Client.answer, reduceCtorEq] at h
    simp only [Account.after] at ha
    split at ha <;> cases ha
    split at h <;> cases h
    exact free_moves ‹_› ‹_›
  | newBody p =>
    cases x <;> cases h
    exact newBody_moves ha
  | onceDo id =>
    cases x <;> simp only [Client.answer, reduceCtorEq] at h
    split at h
    · rename_i p hb
      cases h
      exact onceDo_moves hb ha
    · cases h
      simp only [Account.after] at ha
      split at ha <;> cases ha
      exact moves_same rfl rfl rfl
    · cases h
  | onceDone id =>
    cases x <;> simp only [Client.answer, reduceCtorEq] at h
    obtain ⟨b, hb, hset⟩ := map_eq_some_iff.mp h
    cases hset
    have hbody : a.body = some id := by
      simp only [Account.after] at ha
      split at ha
      · rename_i hgone
        rw [hgone]
      · cases ha
    obtain ⟨b', hb', hrunning⟩ := running_eq_one (hrun id hbody)
    obtain rfl : b = b' := some.inj (hb.symm.trans hb')
    exact onceDone_moves hb hrunning ha

end GolangBasics.Resilient
