import Mathlib.Logic.Function.Basic

/-! The sliding window of `libs/resilient-http-client`: two counters over ten slots of time,
kept in a ring. Times are nanoseconds from the Unix epoch on. -/
namespace GolangBasics.Resilient

def windowSlots : Nat := 10

structure WindowSlot where
  idx : Nat
  a : Int
  b : Int
  deriving DecidableEq

structure Window where
  slot : Nat
  slots : Fin windowSlots → WindowSlot

def newWindow (length : Nat) : Window := ⟨max (length / windowSlots) 1, fun _ => ⟨0, 0, 0⟩⟩

def ring (idx : Nat) : Fin windowSlots := ⟨idx % windowSlots, Nat.mod_lt _ (by decide)⟩

def Window.add (w : Window) (now : Nat) (a b : Int) : Window :=
  let idx := now / w.slot
  let s := w.slots (ring idx)
  let s := if s.idx ≠ idx then ⟨idx, 0, 0⟩ else s
  { w with slots := Function.update w.slots (ring idx) ⟨s.idx, s.a + a, s.b + b⟩ }

def Window.counts (w : Window) (now : Nat) (i : Fin windowSlots) : Bool :=
  ((now / w.slot : Nat) : Int) - (w.slots i).idx < windowSlots

def Window.sum (w : Window) (now : Nat) : Int × Int :=
  ((List.finRange windowSlots).filter (w.counts now)).foldl
    (fun acc i => (acc.1 + (w.slots i).a, acc.2 + (w.slots i).b)) (0, 0)

def Window.reset (w : Window) : Window := { w with slots := fun _ => ⟨0, 0, 0⟩ }

end GolangBasics.Resilient
