import GolangBasics.Conc.Trace
import GolangBasics.Resilient.Config

/-! One attempt of `send`: it makes at most one exchange, with the whole body. -/
namespace GolangBasics.Resilient
open Conc Prog List

/-- What a call asked and what it was told. -/
abbrev Said := Prog.Reply Op Op.Rep

/-- The replies there can be: a jitter is one that `fullJitter` draws, and `GetBody` gives a
copy of the request's body. -/
def Plausible (original : List UInt8) : (op : Op) → op.Rep → Prop
  | .fullJitter n base capDelay, d => ∃ draw, fullJitter draw n base capDelay = some d
  | .getBody, body => body = .ok original
  | _, _ => True

def Plausible.all (original : List UInt8) (events : List Said) : Prop :=
  ∀ e ∈ events, Plausible original e.1 e.2

/-- The body that an exchange sends, where `own` is what is left to read of the request's own. -/
def Request.sent (req : Request) (own : List UInt8) : Said → Option (List UInt8)
  | ⟨.roundTrip _ _ (some body), _⟩ => some body
  | ⟨.roundTrip _ _ none, _⟩ => some (if req.body = .stream then own else [])
  | _ => none

def Request.replayable (req : Request) : Prop :=
  req.body = .nil ∨ req.body = .noBody ∨ req.getBody

def Op.quiet : Op → Prop
  | .roundTrip .. | .sleep _ => False
  | _ => True

variable {p : Policy} {req : Request} {n : Nat} {events : List Said}

theorem only_question {c : Prop} [Decidable c] {q : Op} {x : Call q.Rep} (hq : q.quiet)
    (hx : x.Only Op.quiet) : (if c then ask q else x).Only Op.quiet := by
  split
  · exact ⟨hq, fun _ => trivial⟩
  · exact hx

theorem only_withTimeout (p : Policy) : p.withTimeout.Only Op.quiet := by
  unfold Policy.withTimeout
  exact only_question trivial trivial

theorem only_cancel (p : Policy) : p.cancel.Only Op.quiet := by
  unfold Policy.cancel
  exact only_question trivial trivial

theorem only_allow (p : Policy) : p.allow.Only Op.quiet := by
  unfold Policy.allow
  exact only_question trivial trivial

theorem only_record (p : Policy) (t : Ticket) (o : Outcome) : (p.record t o).Only Op.quiet := by
  unfold Policy.record
  exact only_question trivial trivial

theorem only_wait (p : Policy) : p.wait.Only Op.quiet := by
  unfold Policy.wait
  exact only_question trivial trivial

theorem only_acquire (p : Policy) : p.acquire.Only Op.quiet := by
  unfold Policy.acquire
  split
  · simp
  · refine only_request trivial fun free => ?_
    split
    · simp
    · split
      · simp
      · refine only_request trivial fun ended => ?_
        split <;> simp [request, Op.quiet]

theorem only_release (p : Policy) : p.release.Only Op.quiet := by
  unfold Policy.release
  split
  · exact only_request trivial fun _ => only_cancel p
  · exact only_cancel p

theorem only_fail (p : Policy) (kind : Kind) (err : Option Cause) :
    (p.fail kind err).Only Op.quiet :=
  (only_cancel p).bind fun _ => trivial

theorem only_refused (p : Policy) (t : Ticket) (kind : Kind) (err : Option Cause) :
    (p.refused t kind err).Only Op.quiet := by
  refine (only_record p t _).bind fun _ => only_request trivial fun ended => ?_
  split
  · exact only_request trivial fun e => only_fail p _ _
  · exact only_fail p _ _

theorem only_classify (err : TransportErr) : (classify err).Only Op.quiet := by
  unfold classify
  split
  · simp
  · refine only_request trivial fun ended => ?_
    split
    · simp
    · refine only_request trivial fun e => ?_
      split
      · simp
      · split <;> simp

theorem only_answered (p : Policy) (t : Ticket) (resp : Response) :
    (p.answered t resp).Only Op.quiet := by
  refine (only_record p t _).bind fun _ => ?_
  split
  · simp
  · exact only_request trivial fun _ => only_request trivial fun _ =>
      (only_release p).bind fun _ => trivial

/-- The body given to an exchange is what `GetBody` gave, if it was asked. -/
inductive Request.Body (req : Request) (n : Nat) (before : List Said) :
    Option (List UInt8) → Prop where
  | own (h : ¬(1 < n ∧ req.getBody)) : Body req n before none
  | copy {body : List UInt8} (h : ⟨.getBody, .ok body⟩ ∈ before) : Body req n before (some body)

/-- At most one exchange, and no wait. -/
inductive Exchanges (p : Policy) (req : Request) (n : Nat) : List Said → Prop where
  | none {events : List Said} (h : ∀ e ∈ events, e.1.quiet) : Exchanges p req n events
  | one {before after : List Said} {body : Option (List UInt8)}
      (x : Except TransportErr Response) (hbefore : ∀ e ∈ before, e.1.quiet)
      (hbody : req.Body n before body) (hafter : ∀ e ∈ after, e.1.quiet) :
      Exchanges p req n (before ++ ⟨.roundTrip p.name n body, x⟩ :: after)

theorem Exchanges.append {before : List Said} (hbefore : ∀ e ∈ before, e.1.quiet)
    (h : Exchanges p req n events) : Exchanges p req n (before ++ events) := by
  have hmore : ∀ xs : List Said, (∀ e ∈ xs, e.1.quiet) → ∀ e ∈ before ++ xs, e.1.quiet :=
    fun xs hxs => forall_mem_append.mpr ⟨hbefore, hxs⟩
  cases h with
  | none h => exact .none (hmore _ h)
  | one x hquiet hbody hafter =>
    rw [← append_assoc]
    refine .one x (hmore _ hquiet) ?_ hafter
    cases hbody with
    | own h => exact .own h
    | copy h => exact .copy (mem_append_right _ h)

theorem exchange_runs {t : Ticket} {out : Except OutboundError Response}
    (h : (p.exchange req n t).Runs events out) : Exchanges p req n events := by
  obtain ⟨before, body, after, rfl, hreplay, hrest⟩ := runs_bind.mp h
  have hbefore :
      (∀ e ∈ before, e.1.quiet) ∧ ∀ body', body = .ok body' → req.Body n before body' := by
    unfold replay at hreplay
    split at hreplay
    · obtain ⟨copied, rest, rfl, hrest⟩ := runs_ask.mp hreplay
      cases copied with
      | ok copied =>
        obtain ⟨rfl, rfl⟩ := runs_ret.mp hrest
        refine ⟨by simp [Op.quiet], ?_⟩
        rintro _ ⟨⟩
        exact .copy mem_cons_self
      | error e =>
        obtain ⟨rfl, rfl⟩ := runs_ret.mp hrest
        exact ⟨by simp [Op.quiet], by simp⟩
    · rename_i hown
      obtain ⟨rfl, rfl⟩ := runs_ret.mp hreplay
      refine ⟨by simp, ?_⟩
      rintro _ ⟨⟩
      exact .own hown
  cases body with
  | error e =>
    refine .append hbefore.1 (.none (Only.runs ?_ hrest))
    exact (only_release p).bind fun _ => (only_record p t .ignored).bind fun _ => trivial
  | ok body =>
    obtain ⟨x, after, rfl, hafter⟩ := runs_ask.mp hrest
    refine .one x hbefore.1 (hbefore.2 body rfl) ?_
    cases x with
    | error e =>
      refine Only.runs ?_ hafter
      exact (only_classify e).bind fun _ => (only_release p).bind fun _ =>
        (only_record p t _).bind fun _ => trivial
    | ok resp => exact (only_answered p t resp).runs hafter

theorem attempt_runs {out : Except OutboundError Response}
    (h : (p.attempt req n).Runs events out) : Exchanges p req n events := by
  obtain ⟨timeout, _, rest, rfl, htimeout, hrest⟩ := runs_bind.mp h
  refine .append ((only_withTimeout p).runs htimeout) ?_
  obtain ⟨allow, t, rest, rfl, hallow, hrest⟩ := runs_bind.mp hrest
  refine .append ((only_allow p).runs hallow) ?_
  cases t with
  | none => exact .none ((only_fail p _ _).runs hrest)
  | some t =>
    obtain ⟨wait, e, rest, rfl, hwait, hrest⟩ := runs_bind.mp hrest
    refine .append ((only_wait p).runs hwait) ?_
    cases e with
    | some e => exact .none ((only_refused p t _ _).runs hrest)
    | none =>
      obtain ⟨acquire, free, rest, rfl, hacquire, hrest⟩ := runs_bind.mp hrest
      refine .append ((only_acquire p).runs hacquire) ?_
      cases free with
      | false => exact .none ((only_refused p t _ _).runs hrest)
      | true => exact exchange_runs hrest

/-- An attempt sends nothing, or the whole body once. -/
theorem Exchanges.sent (h : Exchanges p req n events) {original own : List UInt8}
    (hlikely : Plausible.all original events) (hempty : req.body ≠ .stream → original = [])
    (hown : n = 1 → own = original) (hreplay : 1 < n → req.replayable) (hn : 0 < n) :
    events.filterMap (req.sent own) = [] ∨ events.filterMap (req.sent own) = [original] := by
  have hquiet : ∀ xs : List Said, (∀ e ∈ xs, e.1.quiet) → xs.filterMap (req.sent own) = [] := by
    intro xs hxs
    refine filterMap_eq_nil_iff.mpr ?_
    rintro ⟨op, x⟩ he
    have := hxs _ he
    cases op <;> first | rfl | exact this.elim
  cases h with
  | none h => exact .inl (hquiet _ h)
  | one x hbefore hbody hafter =>
    right
    rw [filterMap_append, hquiet _ hbefore, filterMap_cons, hquiet _ hafter]
    cases hbody with
    | copy h =>
      have hcopy := hlikely _ (mem_append_left _ h)
      cases hcopy
      rfl
    | own h =>
      by_cases hstream : req.body = .stream
      · have hfirst : n = 1 := by
          by_contra hne
          have hmore : 1 < n := by omega
          rcases hreplay hmore with hnil | hnil | hget
          · simp [hstream] at hnil
          · simp [hstream] at hnil
          · exact h ⟨hmore, hget⟩
        simp [Request.sent, hstream, hown hfirst]
      · simp [Request.sent, hstream, hempty hstream]

theorem Exchanges.noSleep (h : Exchanges p req n events) (d : Int) (x : Bool) :
    (⟨.sleep d, x⟩ : Said) ∉ events := by
  intro he
  cases h with
  | none h => exact h _ he
  | one y hbefore _ hafter =>
    rcases mem_append.mp he with he | he
    · exact hbefore _ he
    · rcases mem_cons.mp he with he | he
      · cases he
      · exact hafter _ he

section
variable {original : List UInt8}

theorem can_question {c : Prop} [Decidable c] {q : Op} {x : q.Rep} (hq : Plausible original q x) :
    (if c then ask q else pure x : Call q.Rep).Can (Plausible original) x := by
  split
  · exact can_request hq
  · exact can_ret x

theorem can_cancel (p : Policy) : p.cancel.Can (Plausible original) () := by
  unfold Policy.cancel
  exact can_question trivial

theorem can_record (p : Policy) (t : Ticket) (o : Outcome) :
    (p.record t o).Can (Plausible original) () := by
  unfold Policy.record
  exact can_question trivial

theorem can_release (p : Policy) : p.release.Can (Plausible original) () := by
  unfold Policy.release
  split
  · exact (can_request (x := ()) trivial).bind (can_cancel p)
  · exact can_cancel p

theorem can_acquire (p : Policy) : p.acquire.Can (Plausible original) true := by
  unfold Policy.acquire
  split
  · exact can_ret true
  · exact (can_request (x := true) trivial).bind (can_ret true)

def refusedConnection : TransportErr := ⟨false, false, false, "connection refused"⟩

def Policy.unreached (p : Policy) : OutboundError :=
  { kind := .connection, target := p.name, err := some (.transport refusedConnection) }

theorem can_exchange (p : Policy) (req : Request) (n : Nat) (t : Ticket) :
    (p.exchange req n t).Can (Plausible original) (.error p.unreached) := by
  have hclassify :
      (classify refusedConnection).Can (Plausible original) (.connection, .failure) := by
    refine ⟨[⟨.callerErr, none⟩, ⟨.attemptErr, none⟩], ?_, by simp [Plausible]⟩
    unfold classify
    exact runs_request_bind.mpr ⟨none, _, rfl, runs_request_bind.mpr ⟨none, _, rfl, .ret _⟩⟩
  have hreplay : ∃ body, (replay req n).Can (Plausible original) (.ok body) := by
    unfold replay
    split
    · exact ⟨some original, (can_request (x := .ok original) rfl).bind (can_ret _)⟩
    · exact ⟨none, can_ret _⟩
  obtain ⟨body, hreplay⟩ := hreplay
  refine hreplay.bind ((can_request (x := .error refusedConnection) trivial).bind ?_)
  exact hclassify.bind ((can_release p).bind ((can_record p t _).bind (can_ret _)))

/-- Any attempt can fail in a way that is worth another one. -/
theorem can_attempt (original : List UInt8) (p : Policy) (req : Request) (n : Nat) :
    (p.attempt req n).Can (Plausible original) (.error p.unreached) := by
  have htimeout : p.withTimeout.Can (Plausible original) () := by
    unfold Policy.withTimeout
    exact can_question trivial
  have hallow : p.allow.Can (Plausible original) (some ⟨0, false⟩) := by
    unfold Policy.allow
    exact can_question trivial
  have hwait : p.wait.Can (Plausible original) none := by
    unfold Policy.wait
    exact can_question trivial
  exact htimeout.bind (hallow.bind (hwait.bind ((can_acquire p).bind (can_exchange p req n _))))

end

end GolangBasics.Resilient
