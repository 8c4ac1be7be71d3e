import Mathlib.Algebra.Order.Group.Nat
import Mathlib.Tactic.SplitIfs

/-! The read/write lock of threads that run step by step. Who holds it is not recorded: an
invariant counts the threads at places where they hold it. -/
namespace GolangBasics.Conc

structure RWMutex where
  readers : Nat
  writer : Bool
  deriving DecidableEq

namespace RWMutex

def unlocked : RWMutex := ⟨0, false⟩

def rLock (mu : RWMutex) : Option RWMutex :=
  if mu.writer then none else some { mu with readers := mu.readers + 1 }

def rUnlock (mu : RWMutex) : RWMutex := { mu with readers := mu.readers - 1 }

def lock (mu : RWMutex) : Option RWMutex :=
  if mu.writer ∨ mu.readers ≠ 0 then none else some { mu with writer := true }

def unlock (mu : RWMutex) : RWMutex := { mu with writer := false }

/-- `reads` threads hold the lock for reading and `writes` threads for writing. -/
structure Held (mu : RWMutex) (reads writes : Nat) : Prop where
  readers : mu.readers = reads
  writer : mu.writer.toNat = writes
  alone : writes ≠ 0 → reads = 0

variable {mu mu' : RWMutex} {reads writes : Nat}

theorem held_unlocked : Held unlocked 0 0 := ⟨rfl, rfl, fun h => absurd rfl h⟩

theorem Held.writes_le (h : Held mu reads writes) : writes ≤ 1 := by
  rw [← h.writer]
  exact Bool.toNat_le _

theorem Held.rLock (h : Held mu reads writes) (hlock : mu.rLock = some mu') :
    Held mu' (reads + 1) writes := by
  unfold RWMutex.rLock at hlock
  split_ifs at hlock with hw
  cases hlock
  have hzero : writes = 0 := by
    rw [← h.writer]
    simpa using hw
  exact ⟨congrArg (· + 1) h.readers, h.writer, fun hne => absurd hzero hne⟩

theorem Held.rUnlock (h : Held mu (reads + 1) writes) : Held mu.rUnlock reads writes := by
  refine ⟨?_, h.writer, fun hne => ?_⟩
  · have := h.readers
    simp only [RWMutex.rUnlock]
    omega
  · have := h.alone hne
    omega

theorem Held.lock (h : Held mu reads writes) (hlock : mu.lock = some mu') :
    Held mu' reads (writes + 1) := by
  unfold RWMutex.lock at hlock
  split_ifs at hlock with hbusy
  cases hlock
  obtain ⟨hw, hr⟩ : mu.writer = false ∧ mu.readers = 0 := by simpa using hbusy
  have hzero : writes = 0 := by
    rw [← h.writer, hw]
    rfl
  subst hzero
  exact ⟨h.readers, rfl, fun _ => h.readers.symm.trans hr⟩

theorem Held.unlock (h : Held mu reads (writes + 1)) : Held mu.unlock reads writes := by
  have hle := h.writes_le
  obtain rfl : writes = 0 := by omega
  exact ⟨h.readers, rfl, fun hne => absurd rfl hne⟩

end RWMutex

end GolangBasics.Conc
