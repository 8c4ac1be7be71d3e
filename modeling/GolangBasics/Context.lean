import GolangBasics.Errors

/-! `context.Context`: a deadline and a cancellation, at a time of the clock. -/
namespace GolangBasics

/-- `cancelled` is set only while the context is live. -/
structure Context where
  deadline : Option Nat
  cancelled : Bool
  deriving DecidableEq

namespace Context

def background : Context := ⟨none, false⟩

/-- `WithoutCancel`: neither the deadline nor the cancellation of the parent. -/
def withoutCancel (_ : Context) : Context := background

/-- `WithDeadline`: no later than the parent's. -/
def withDeadline (c : Context) (d : Nat) : Context :=
  { c with deadline := some (c.deadline.elim d (min d)) }

def err (c : Context) (now : Nat) : Option Err :=
  if c.cancelled then some (.sentinel .canceled)
  else if c.deadline.any (· ≤ now) then some (.sentinel .deadlineExceeded)
  else none

def ended (c : Context) (now : Nat) : Bool := (c.err now).isSome

def cancel (c : Context) (now : Nat) : Context :=
  if c.ended now then c else { c with cancelled := true }

variable {c : Context} {now now' : Nat}

theorem ended_iff : c.ended now ↔ c.cancelled ∨ ∃ d, c.deadline = some d ∧ d ≤ now := by
  unfold ended err
  cases c.deadline <;> by_cases hc : c.cancelled = true <;> simp [hc]

theorem ended_mono (h : c.ended now) (hle : now ≤ now') : c.ended now' := by
  rw [ended_iff] at h ⊢
  rcases h with hc | ⟨d, hd, hd'⟩
  · exact .inl hc
  · exact .inr ⟨d, hd, by omega⟩

theorem ended_cancel (h : c.ended now) : (c.cancel now').ended now := by
  unfold cancel
  split
  · exact h
  · rw [ended_iff] at h ⊢
    exact .inl rfl

theorem deadline_cancel : (c.cancel now).deadline = c.deadline := by
  unfold cancel
  split <;> rfl

end Context

end GolangBasics
