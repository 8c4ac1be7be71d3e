import GolangBasics.Resilient.Calls

/-! Every path through `send` and `Close` keeps its account in order, whatever the breaker,
the limiter, the bulkhead, the transport and the contexts do. -/
namespace GolangBasics.Resilient
open Conc Prog

variable {a : Account} {p : Policy} {α : Type} {Q : α → Account → Prop}

/-- The call keeps its account in order from `a` on, and ends as wanted. -/
abbrev Keeps (Q : α → Account → Prop) (call : Call α) (a : Account) : Prop :=
  call.Meets Account.after Q a

theorem keeps_pure {r : α} (h : Q r a) : Keeps Q (pure r) a := h

theorem keeps_unseen {op : Op} {f : op.Rep → Call α} (hop : ∀ x, Account.after op x a = some a)
    (h : ∀ x, Keeps Q (f x) a) : Keeps Q (ask op >>= f) a :=
  meets_request fun x => ⟨a, hop x, h x⟩

theorem leave_keeps (h : a.phase = .admitted ∨ a.phase = .refused) :
    Keeps (fun _ a' => a' = { a with phase := .gone }) leave a := by
  refine meets_request fun n => ⟨_, if_pos h, ?_⟩
  by_cases hn : n = 0
  · simp only [hn, if_true]
    refine meets_request fun closing => ⟨_, rfl, ?_⟩
    cases closing with
    | false => exact keeps_pure rfl
    | true => exact fun _ => ⟨_, rfl, rfl⟩
  · simp only [hn, if_false]
    exact keeps_pure rfl

theorem enter_keeps (h : a.phase = .out) :
    Keeps (fun entered a' => a' = { a with phase := if entered then .admitted else .gone })
      enter a := by
  refine meets_request fun _ => ⟨_, if_pos h, meets_request fun closing => ⟨_, rfl, ?_⟩⟩
  cases closing with
  | false => exact keeps_pure rfl
  | true =>
    refine (leave_keeps (.inr rfl)).bind fun _ a' ha' => ?_
    subst ha'
    exact keeps_pure rfl

theorem allow_keeps (h : a.ticket = none) :
    Keeps (fun t a' => a' = { a with ticket := p.issued t }) p.allow a := by
  unfold Policy.allow Policy.issued
  split
  · exact fun t => ⟨_, if_pos h, rfl⟩
  · exact keeps_pure (by rw [← h])

theorem record_keeps {t : Ticket} (o : Outcome) (h : a.ticket = p.issued (some t)) :
    Keeps (fun _ a' => a' = { a with ticket := none }) (p.record t o) a := by
  unfold Policy.record
  unfold Policy.issued at h
  split
  · rename_i hbreaker
    exact fun _ => ⟨_, if_pos (by simpa [hbreaker] using h), rfl⟩
  · rename_i hbreaker
    have hnone : a.ticket = none := by simpa [hbreaker] using h
    exact keeps_pure (by rw [← hnone])

theorem wait_keeps : Keeps (fun _ a' => a' = a) p.wait a := by
  unfold Policy.wait
  split
  · exact fun _ => ⟨a, rfl, rfl⟩
  · exact keeps_pure rfl

theorem acquire_keeps (h : a.slot = none) :
    Keeps (fun got a' => a' = if got then { a with slot := p.slot } else a) p.acquire a := by
  unfold Policy.acquire
  split
  · rename_i hnone
    refine keeps_pure ?_
    simp [Policy.slot, not_lt.mpr hnone, ← h]
  · rename_i hsome
    have hslot : p.slot = some p.name := if_pos (by omega)
    refine meets_request fun got => ⟨_, if_pos h, ?_⟩
    cases got with
    | true => exact keeps_pure (by rw [hslot])
    | false =>
      simp only [Bool.false_eq_true, if_false]
      split
      · exact keeps_pure rfl
      · refine keeps_unseen (fun _ => rfl) fun e => ?_
        split
        · exact keeps_pure rfl
        · rw [hslot]
          exact fun got => ⟨_, if_pos h, rfl⟩

theorem withTimeout_keeps (h : a.timeout = false) :
    Keeps (fun _ a' => a' = { a with timeout := p.timed }) p.withTimeout a := by
  unfold Policy.withTimeout Policy.timed
  split
  · rename_i htimed
    rw [decide_eq_true htimed]
    exact fun _ => ⟨_, if_neg (by simp [h]), rfl⟩
  · rename_i htimed
    exact keeps_pure (by simp [htimed, ← h])

theorem cancel_keeps (h : a.timeout = p.timed) :
    Keeps (fun _ a' => a' = { a with timeout := false }) p.cancel a := by
  unfold Policy.cancel
  unfold Policy.timed at h
  split
  · rename_i htimed
    exact fun _ => ⟨_, if_pos (by simp [h, htimed]), rfl⟩
  · rename_i htimed
    have hnone : a.timeout = false := by simp [h, htimed]
    exact keeps_pure (by rw [← hnone])

theorem release_keeps (hslot : a.slot = p.slot) (htimeout : a.timeout = p.timed) :
    Keeps (fun _ a' => a' = { a with slot := none, timeout := false }) p.release a := by
  unfold Policy.release
  unfold Policy.slot at hslot
  split
  · rename_i hsome
    rw [if_pos hsome] at hslot
    refine meets_request fun _ => ⟨_, if_pos hslot, ?_⟩
    exact cancel_keeps (a := { a with slot := none }) htimeout
  · rename_i hnone
    rw [if_neg hnone] at hslot
    rw [← hslot]
    exact cancel_keeps htimeout

theorem classify_keeps (e : TransportErr) : Keeps (fun _ a' => a' = a) (classify e) a := by
  unfold classify
  split
  · exact keeps_pure rfl
  · refine keeps_unseen (fun _ => rfl) fun caller => ?_
    split
    · exact keeps_pure rfl
    · refine keeps_unseen (fun _ => rfl) fun attempt => ?_
      split
      · exact keeps_pure rfl
      · split <;> exact keeps_pure rfl

theorem replay_keeps (req : Request) (n : Nat) : Keeps (fun _ a' => a' = a) (replay req n) a := by
  unfold replay
  split
  · refine keeps_unseen (fun _ => rfl) fun body => ?_
    cases body <;> exact keeps_pure rfl
  · exact keeps_pure rfl

/-- After an attempt a success holds what its release gives back, and an error nothing but
the call's place in the count. -/
def Policy.Attempted (p : Policy) (r : Except OutboundError Response) (a : Account) : Prop :=
  match r with
  | .ok _ => a = p.holding
  | .error _ => a = { phase := .admitted }

theorem fail_keeps (kind : Kind) (err : Option Cause) :
    Keeps p.Attempted (p.fail kind err) { phase := .admitted, timeout := p.timed } := by
  refine (cancel_keeps rfl).bind fun _ a' ha' => ?_
  subst ha'
  exact keeps_pure rfl

theorem refused_keeps (t : Ticket) (kind : Kind) (err : Option Cause) :
    Keeps p.Attempted (p.refused t kind err)
      { phase := .admitted, timeout := p.timed, ticket := p.issued (some t) } := by
  refine (record_keeps .ignored rfl).bind fun _ a' ha' => ?_
  subst ha'
  refine keeps_unseen (fun _ => rfl) fun e => ?_
  split
  · exact keeps_unseen (fun _ => rfl) fun e => fail_keeps .canceled _
  · exact fail_keeps kind err

theorem answered_keeps (t : Ticket) (resp : Response) :
    Keeps p.Attempted (p.answered t resp) { p.holding with ticket := p.issued (some t) } := by
  refine (record_keeps _ rfl).bind fun _ a' ha' => ?_
  subst ha'
  split
  · exact keeps_pure rfl
  · refine keeps_unseen (fun _ => rfl) fun retryAfter => ?_
    refine keeps_unseen (fun _ => rfl) fun body => ?_
    refine (release_keeps rfl rfl).bind fun _ a' ha' => ?_
    subst ha'
    exact keeps_pure rfl

/-- On every error path of an exchange the release comes first and the record after it. -/
theorem release_record_keeps (t : Ticket) (o : Outcome) (oe : OutboundError) :
    Keeps p.Attempted (do p.release; p.record t o; return .error oe)
      { p.holding with ticket := p.issued (some t) } := by
  refine (release_keeps rfl rfl).bind fun _ a' ha' => ?_
  subst ha'
  refine (record_keeps o rfl).bind fun _ a' ha' => ?_
  subst ha'
  exact keeps_pure rfl

theorem exchange_keeps (req : Request) (n : Nat) (t : Ticket) :
    Keeps p.Attempted (p.exchange req n t) { p.holding with ticket := p.issued (some t) } := by
  refine (replay_keeps req n).bind fun body a' ha' => ?_
  subst ha'
  cases body with
  | error e => exact release_record_keeps t _ _
  | ok body =>
    refine keeps_unseen (fun _ => rfl) fun r => ?_
    cases r with
    | error e =>
      refine (classify_keeps e).bind fun kind a' ha' => ?_
      subst ha'
      exact release_record_keeps t _ _
    | ok resp => exact answered_keeps t resp

theorem attempt_keeps (req : Request) (n : Nat) :
    Keeps p.Attempted (p.attempt req n) { phase := .admitted } := by
  refine (withTimeout_keeps rfl).bind fun _ a' ha' => ?_
  subst ha'
  refine (allow_keeps rfl).bind fun t a' ha' => ?_
  subst ha'
  cases t with
  | none =>
    have hnone : p.issued none = none := by simp [Policy.issued]
    rw [hnone]
    exact fail_keeps .circuitOpen none
  | some t =>
    refine wait_keeps.bind fun e a' ha' => ?_
    subst ha'
    cases e with
    | some e => exact refused_keeps t _ _
    | none =>
      refine (acquire_keeps rfl).bind fun got a' ha' => ?_
      subst ha'
      cases got with
      | true => exact exchange_keeps req n t
      | false => exact refused_keeps t _ _

theorem sleep_keeps (d : Int) : Keeps (fun _ a' => a' = a) (sleep d) a := by
  unfold sleep
  split
  · exact keeps_unseen (fun _ => rfl) fun e => keeps_pure rfl
  · exact fun _ => ⟨a, rfl, rfl⟩

theorem tryRetry_keeps : Keeps (fun _ a' => a' = a) p.tryRetry a := by
  unfold Policy.tryRetry
  split
  · exact fun _ => ⟨a, rfl, rfl⟩
  · exact keeps_pure rfl

theorem round_keeps (req : Request) (n : Nat)
    {failed : OutboundError → Call (Except OutboundError Response)}
    (h : ∀ oe, Keeps p.Attempted (failed oe) { phase := .admitted }) :
    Keeps p.Attempted (p.round req n failed) { phase := .admitted } := by
  refine keeps_unseen (fun _ => rfl) fun e => ?_
  cases e with
  | some e => exact keeps_pure rfl
  | none =>
    refine (attempt_keeps req n).bind fun r a' ha' => ?_
    cases r with
    | ok resp => exact keeps_pure ha'
    | error oe =>
      obtain rfl : a' = { phase := .admitted } := ha'
      exact h oe

/-- By induction on the attempts left: an error has given back all it took before the next
attempt takes anything. -/
theorem tries_keeps (req : Request) (left n : Nat) :
    Keeps p.Attempted (p.tries req left n) { phase := .admitted } := by
  induction left generalizing n with
  | zero => exact round_keeps req n fun oe => keeps_pure rfl
  | succ left ih =>
    refine round_keeps req n fun oe => ?_
    split
    · exact keeps_pure rfl
    · refine keeps_unseen (fun _ => rfl) fun jitter => ?_
      split
      · exact keeps_pure rfl
      · refine keeps_unseen (fun _ => rfl) fun deadline => ?_
        split
        · exact keeps_pure rfl
        · refine tryRetry_keeps.bind fun granted a' ha' => ?_
          subst ha'
          split
          · exact keeps_pure rfl
          · refine (sleep_keeps _).bind fun slept a' ha' => ?_
            subst ha'
            split
            · exact keeps_unseen (fun _ => rfl) fun e => keeps_pure rfl
            · exact ih (n + 1)

/-- What a call of `Send` holds when it returns: nothing with an error, and what it has handed
to the body otherwise. -/
def Result.Settles : Result → Account → Prop
  | .sent (.ok (_, body)), a => a = { phase := .handed body }
  | .sent (.error _), a | .closed _, a => a.settled

theorem send_keeps (cl : Client) (target : String) (req : Request) (retry : Bool) :
    Keeps (fun r => (Result.sent r).Settles) (cl.send target req retry) {} := by
  have hout : Account.settled {} := by simp [Account.settled]
  have hgone : Account.settled { phase := .gone } := by simp [Account.settled]
  unfold Client.send
  split
  · exact keeps_pure hout
  · rename_i p hp
    split
    · exact keeps_pure hout
    · refine (enter_keeps rfl).bind fun entered a' ha' => ?_
      subst ha'
      cases entered with
      | false => exact keeps_pure hgone
      | true =>
        have htries : Keeps (fun r => (Result.sent r).Settles) (do
            match ← p.tries req (p.attempts req retry - 1) 1 with
            | .ok resp =>
              let body ← ask (.newBody p)
              return .ok (resp, body)
            | .error oe =>
              leave
              return .error oe) { phase := .admitted } := by
          refine (tries_keeps req _ 1).bind fun r a' ha' => ?_
          cases r with
          | ok resp =>
            obtain rfl : a' = p.holding := ha'
            exact meets_request fun body => ⟨_, if_pos rfl, keeps_pure rfl⟩
          | error oe =>
            obtain rfl : a' = { phase := .admitted } := ha'
            refine (leave_keeps (.inl rfl)).bind fun _ a' ha' => ?_
            subst ha'
            exact keeps_pure hgone
        simp only [Bool.not_true, Bool.false_eq_true, if_false]
        split
        · exact keeps_unseen (fun _ => rfl) fun _ => htries
        · exact htries

theorem close_keeps (body : Nat) :
    Keeps (fun _ => (Result.closed body).Settles) (close body) {} := by
  have hgone : Account.settled { phase := .gone } := by simp [Account.settled]
  refine meets_request fun run => ?_
  cases run with
  | none => exact ⟨{}, rfl, keeps_pure (by simp [Result.Settles, Account.settled])⟩
  | some p =>
    refine ⟨{ p.holding with body := some body }, rfl, ?_⟩
    refine (release_keeps rfl rfl).bind fun _ a' ha' => ?_
    subst ha'
    refine (leave_keeps (.inl rfl)).bind fun _ a' ha' => ?_
    subst ha'
    exact fun _ => ⟨_, if_pos rfl, hgone⟩

/-- The body that a call knows to be released, after an operation. -/
def Op.released : (op : Op) → op.Rep → Option Nat → Option Nat
  | .onceDo body, none, _ | .onceDone body, _, _ => some body
  | _, _, known => known

/-- The call returns from a `Close` only with its body released. -/
abbrev Releases (call : Call Result) (known : Option Nat) : Prop :=
  call.Meets (fun op x known => some (op.released x known))
    (fun r known => ∀ id, r = .closed id → known = some id) known

theorem send_releases (call : Call (Except OutboundError (Response × Nat))) :
    Releases (do return .sent (← call)) none :=
  (meets_total call none).bind fun _ _ _ id h => by cases h

theorem close_releases (body : Nat) : Releases (do close body; return .closed body) none := by
  have hclose : (close body).Meets (fun op x known => some (op.released x known))
      (fun _ known => known = some body) none := by
    refine meets_request fun run => ⟨_, rfl, ?_⟩
    cases run with
    | none => exact rfl
    | some p =>
      refine (meets_total p.release _).bind fun _ _ _ => ?_
      exact (meets_total leave _).bind fun _ _ _ _ => ⟨_, rfl, rfl⟩
  refine hclose.bind fun _ known hknown id h => ?_
  cases h
  exact hknown

end GolangBasics.Resilient
