import Mathlib.Logic.Function.Basic
import Mathlib.Tactic.SplitIfs

/-! Transactions over shared tables. A session collects the changes of its transaction and
applies them all at the commit; locks are held until the session ends. A commit may be lost
on the way: the session then stays between the two outcomes until the server decides. -/
namespace GolangBasics.Conc
open List Option

/-- `active` carries the time the transaction began and its changes, oldest first. -/
inductive Session (δ : Type) where
  | active (start : Nat) (changes : List δ)
  | failed
  | committing (changes : List δ)
  | closed
  | crashed

/-- Sessions the server still knows, which may hold locks. -/
def Session.isOpen {δ : Type} : Session δ → Bool
  | active .. | failed | committing _ => true
  | closed | crashed => false

structure Database (P K δ τ : Type) where
  clock : Nat
  tables : τ
  session : P → Option (Session δ)
  locks : K → Option P
  committed : List P

namespace Database

variable {P K δ τ : Type}

def acquire [DecidableEq K] (db : Database P K δ τ) (p : P) (ks : List K) : Database P K δ τ :=
  { db with locks := fun k => if k ∈ ks then some p else db.locks k }

def applyAll (apply : δ → τ → τ) (changes : List δ) (t : τ) : τ :=
  changes.foldl (fun t d => apply d t) t

def changes (db : Database P K δ τ) (p : P) : List δ :=
  match db.session p with
  | some (.active _ cs) | some (.committing cs) => cs
  | _ => []

/-- What the session of `p` sees: the committed tables under its own changes. -/
def view (apply : δ → τ → τ) (db : Database P K δ τ) (p : P) : τ :=
  applyAll apply (db.changes p) db.tables

/-- The session is over, and stays so. -/
def Ended (db : Database P K δ τ) (p : P) : Prop :=
  ∃ x, db.session p = some x ∧ x.isOpen = false

variable {cs : List δ}

section Changes

variable {db db' : Database P K δ τ} {p : P}

theorem changes_congr (h : db'.session p = db.session p) : db'.changes p = db.changes p := by
  unfold changes
  rw [h]

theorem not_ended_of_open {x : Session δ} (h : db.session p = some x) (hx : x.isOpen) :
    ¬ db.Ended p := by
  rintro ⟨y, hy, hclosed⟩
  obtain rfl := some.inj (h.symm.trans hy)
  simp [hx] at hclosed

theorem changes_of_ended (h : db.Ended p) : db.changes p = [] := by
  obtain ⟨x, hx, hclosed⟩ := h
  unfold changes
  rw [hx]
  cases x <;> simp_all [Session.isOpen]

theorem changes_active {t : Nat} (h : db.session p = some (.active t cs)) : db.changes p = cs := by
  unfold changes
  rw [h]

theorem changes_committing (h : db.session p = some (.committing cs)) : db.changes p = cs := by
  unfold changes
  rw [h]

theorem changes_of_open {t : Nat}
    (h : db.session p = some (.active t cs) ∨ db.session p = some (.committing cs)) :
    db.changes p = cs :=
  h.elim changes_active changes_committing

theorem acquire_locks [DecidableEq K] {k : K} {ks : List K} :
    (db.acquire p ks).locks k = if k ∈ ks then some p else db.locks k := rfl

end Changes

variable [DecidableEq P]

def put (db : Database P K δ τ) (p : P) (x : Session δ) : Database P K δ τ :=
  { db with session := Function.update db.session p (some x) }

def start (db : Database P K δ τ) (p : P) : Database P K δ τ := db.put p (.active db.clock [])

def close (db : Database P K δ τ) (p : P) (x : Session δ) : Database P K δ τ :=
  { db.put p x with locks := fun k => if db.locks k = some p then none else db.locks k }

/-- One write of an active transaction, under the locks it needs. -/
def write [DecidableEq K] (db : Database P K δ τ) (p : P) (start : Nat) (changes : List δ)
    (ks : List K) (d : δ) : Database P K δ τ :=
  (db.acquire p ks).put p (.active start (changes ++ [d]))

def commit (apply : δ → τ → τ) (db : Database P K δ τ) (p : P) (changes : List δ) :
    Database P K δ τ :=
  { db.close p .closed with
    tables := applyAll apply changes db.tables
    committed := p :: db.committed }

inductive Step [DecidableEq K] (apply : δ → τ → τ) (p : P) (db : Database P K δ τ) :
    Database P K δ τ → Prop where
  | start (h : db.session p = none) : Step apply p db (db.start p)
  | acquire {t cs} (ks : List K) (h : db.session p = some (.active t cs))
      (hks : ∀ k ∈ ks, db.locks k = none ∨ db.locks k = some p) : Step apply p db (db.acquire p ks)
  | write {t cs} (ks : List K) (d : δ) (h : db.session p = some (.active t cs))
      (hks : ∀ k ∈ ks, db.locks k = none ∨ db.locks k = some p) :
      Step apply p db (db.write p t cs ks d)
  | fail {t cs} (h : db.session p = some (.active t cs)) : Step apply p db (db.put p .failed)
  | suspend {t cs} (h : db.session p = some (.active t cs)) :
      Step apply p db (db.put p (.committing cs))
  | close {x y} (h : db.session p = some x) (hx : x.isOpen) (hy : y.isOpen = false) :
      Step apply p db (db.close p y)
  | commit {t cs} (h : db.session p = some (.active t cs) ∨ db.session p = some (.committing cs)) :
      Step apply p db (db.commit apply p cs)

section Lemmas

variable {apply : δ → τ → τ} {db db' : Database P K δ τ} {p q : P} {k : K} {x : Session δ}

@[simp] theorem put_session_self : (db.put p x).session p = some x := by simp [put]

theorem put_session_of_ne (h : q ≠ p) : (db.put p x).session q = db.session q := by
  simp [put, Function.update_of_ne h]

theorem changes_suspend {t : Nat} (h : db.session p = some (.active t cs)) :
    (db.put p (.committing cs)).changes p = db.changes p :=
  (changes_committing put_session_self).trans (changes_active h).symm

theorem session_of_commit (h : (db.commit apply p cs).session q = some x) (hx : x.isOpen) :
    q ≠ p ∧ db.session q = some x := by
  have h : (db.put p .closed).session q = some x := h
  by_cases hqp : q = p
  · subst hqp
    obtain rfl := some.inj (put_session_self.symm.trans h)
    simp [Session.isOpen] at hx
  · exact ⟨hqp, (put_session_of_ne hqp).symm.trans h⟩

theorem mem_changes_commit {d : δ} (h : d ∈ (db.commit apply p cs).changes q) :
    q ≠ p ∧ d ∈ db.changes q := by
  by_cases hqp : q = p
  · subst hqp
    have hended : (db.commit apply q cs).Ended q := ⟨.closed, put_session_self, rfl⟩
    simp [changes_of_ended hended] at h
  · exact ⟨hqp, changes_congr (put_session_of_ne hqp) ▸ h⟩

theorem close_locks :
    (db.close p x).locks k = if db.locks k = some p then none else db.locks k := rfl

variable [DecidableEq K]

theorem write_locks {t : Nat} {ks : List K} {d : δ} :
    (db.write p t cs ks d).locks k = if k ∈ ks then some p else db.locks k := rfl

theorem changes_write {t : Nat} {ks : List K} {d : δ} :
    (db.write p t cs ks d).changes p = cs ++ [d] := changes_active put_session_self

theorem mem_changes_write {t : Nat} {ks : List K} {d e : δ}
    (h : db.session p = some (.active t cs)) (he : e ∈ (db.write p t cs ks d).changes p) :
    e ∈ db.changes p ∨ e = d := by
  rw [changes_write, mem_append, mem_singleton] at he
  rwa [changes_active h]

theorem Step.session_of_ne (h : Step apply p db db') (hq : q ≠ p) :
    db'.session q = db.session q := by
  cases h with
  | acquire => rfl
  | _ => exact put_session_of_ne hq

theorem Step.session_ne_none (h : Step apply p db db') (hq : db.session q ≠ none) :
    db'.session q ≠ none := by
  by_cases hqp : q = p
  · subst hqp
    cases h with
    | acquire => exact hq
    | _ => exact ne_of_eq_of_ne put_session_self (some_ne_none _)
  · rw [h.session_of_ne hqp]
    exact hq

theorem Step.clock (h : Step apply p db db') : db'.clock = db.clock := by
  cases h <;> rfl

theorem Step.began (h : Step apply p db db') {t : Nat} (hq : db'.session q = some (.active t cs)) :
    (∃ cs', db.session q = some (.active t cs')) ∨ db.session q = none ∧ t = db.clock := by
  by_cases hqp : q = p
  · subst hqp
    cases h with
    | start h =>
      have hq : (db.put q (.active db.clock [])).session q = some (.active t cs) := hq
      obtain ⟨rfl, -⟩ : db.clock = t ∧ [] = cs := by simpa using hq
      exact .inr ⟨h, rfl⟩
    | acquire _ _ => exact .inl ⟨cs, hq⟩
    | @write t₀ cs₀ ks d h =>
      have hq : ((db.acquire q ks).put q (.active t₀ (cs₀ ++ [d]))).session q =
        some (.active t cs) := hq
      obtain ⟨rfl, -⟩ : t₀ = t ∧ cs₀ ++ [d] = cs := by simpa using hq
      exact .inl ⟨cs₀, h⟩
    | close _ _ hy =>
      obtain rfl := some.inj (put_session_self.symm.trans hq)
      simp [Session.isOpen] at hy
    | @commit _ cs₀ _ =>
      have hclosed : (db.commit apply q cs₀).session q = some .closed := put_session_self
      simp [hclosed] at hq
    | _ => simp at hq
  · rw [h.session_of_ne hqp] at hq
    exact .inl ⟨cs, hq⟩

theorem Step.locks_of_ne (h : Step apply p db db') (hq : q ≠ p) :
    db'.locks k = some q ↔ db.locks k = some q := by
  have hclose : ∀ y : Session δ, (db.close p y).locks k = some q ↔ db.locks k = some q := by
    intro y
    rw [close_locks]
    split_ifs with hp
    · simp [hp, hq.symm]
    · rfl
  have hacquire : ∀ ks : List K, (∀ l ∈ ks, db.locks l = none ∨ db.locks l = some p) →
      ((db.acquire p ks).locks k = some q ↔ db.locks k = some q) := by
    intro ks hks
    rw [acquire_locks]
    split_ifs with hk
    · rcases hks k hk with h | h <;> simp [h, hq.symm]
    · rfl
  cases h with
  | acquire ks _ hks => exact hacquire ks hks
  | write ks d _ hks => exact hacquire ks hks
  | close => exact hclose _
  | commit => exact hclose .closed
  | _ => rfl

/-- Locks belong to open sessions, and a committed session is closed. -/
structure Wf (db : Database P K δ τ) : Prop where
  locks : ∀ k p, db.locks k = some p → ∃ x, db.session p = some x ∧ x.isOpen
  committed : ∀ p ∈ db.committed, db.session p = some .closed

theorem Step.not_ended (h : Step apply p db db') {x : Session δ} (hx : db.session p = some x) :
    x.isOpen := by
  have hclaim : ∀ y : Session δ, db.session p = some y → y.isOpen → x.isOpen := by
    intro y hy ho
    obtain rfl : x = y := some.inj (hx.symm.trans hy)
    exact ho
  cases h with
  | start h => simp [h] at hx
  | close h ho => exact hclaim _ h ho
  | commit h =>
    rcases h with h | h
    · exact hclaim _ h rfl
    · exact hclaim _ h rfl
  | acquire _ h => exact hclaim _ h rfl
  | write _ _ h => exact hclaim _ h rfl
  | fail h => exact hclaim _ h rfl
  | suspend h => exact hclaim _ h rfl

theorem Step.not_committed (h : Step apply p db db') (hdb : db.Wf) : p ∉ db.committed := by
  intro hp
  simpa [Session.isOpen] using h.not_ended (hdb.committed p hp)

theorem Step.ended (h : Step apply p db db') (hq : db.Ended q) : db'.Ended q := by
  obtain ⟨x, hx, hclosed⟩ := hq
  have hqp : q ≠ p := by
    rintro rfl
    simp [h.not_ended hx] at hclosed
  exact ⟨x, by rw [h.session_of_ne hqp, hx], hclosed⟩

theorem Step.locks_self (h : Step apply p db db') (hk : db.locks k = some p) :
    db'.locks k = some p ∨ db'.Ended p := by
  cases h with
  | acquire ks =>
    left
    rw [acquire_locks]
    split_ifs
    · rfl
    · exact hk
  | write ks =>
    left
    rw [write_locks]
    split_ifs
    · rfl
    · exact hk
  | close _ _ hy => exact .inr ⟨_, put_session_self, hy⟩
  | commit => exact .inr ⟨.closed, put_session_self, rfl⟩
  | _ => exact .inl hk

theorem Step.wf (h : Step apply p db db') (hdb : db.Wf) : db'.Wf := by
  constructor
  · intro k q hk
    by_cases hq : q = p
    · subst hq
      cases h with
      | start h =>
        obtain ⟨x, hx, -⟩ := hdb.locks k q hk
        simp [h] at hx
      | acquire ks h => exact ⟨_, h, rfl⟩
      | write ks d h => exact ⟨_, put_session_self, rfl⟩
      | fail h => exact ⟨_, put_session_self, rfl⟩
      | suspend h => exact ⟨_, put_session_self, rfl⟩
      | close h => simp [close_locks] at hk
      | commit h =>
        have hk : (db.close q .closed).locks k = some q := hk
        simp [close_locks] at hk
    · rw [h.locks_of_ne hq] at hk
      rw [h.session_of_ne hq]
      exact hdb.locks k q hk
  · have hold : ∀ q ∈ db.committed, db'.session q = some .closed := by
      intro q hq
      have hqp : q ≠ p := fun heq => h.not_committed hdb (heq ▸ hq)
      rw [h.session_of_ne hqp]
      exact hdb.committed q hq
    cases h with
    | commit h =>
      intro q hq
      rcases mem_cons.mp hq with rfl | hq
      · exact put_session_self
      · exact hold q hq
    | _ => exact hold

end Lemmas

end Database

end GolangBasics.Conc
