import Mathlib.Tactic.SplitIfs

/-! The status that the access log and the metrics of `libs/httpx` record, next to the one that
`net/http` sends. -/
namespace GolangBasics.Httpx

/-- `net/http`'s response on a connection that stays open: the informational headers it has
sent, and the status of the final one. -/
structure Wire where
  informational : List Int := []
  status : Option Int := none

def Informational (code : Int) : Prop := (100 ≤ code ∧ code ≤ 199) ∧ code ≠ 101

instance (code : Int) : Decidable (Informational code) := inferInstanceAs (Decidable (_ ∧ _))

namespace Wire

def writeHeader (w : Wire) (code : Int) : Option Wire :=
  if w.status.isSome then some w
  else if code < 100 ∨ 999 < code then none
  else if Informational code then some { w with informational := w.informational ++ [code] }
  else some { w with status := some code }

theorem status_writeHeader {w w' : Wire} {code : Int} (h : w.writeHeader code = some w') :
    w'.status = w.status ∨ w'.status = some code ∧ ¬ Informational code := by
  unfold writeHeader at h
  split_ifs at h with hsent hcode hinformational
  all_goals obtain rfl := Option.some.inj h
  · exact .inl rfl
  · exact .inl rfl
  · exact .inr ⟨rfl, hinformational⟩

/-- `Write` and `Flush`: the first one without a final header sends 200. -/
def write (w : Wire) : Wire := { w with status := some (w.status.getD 200) }

def sent (w : Wire) : Int := w.status.getD 200

end Wire

structure ResponseWriter where
  wire : Wire := {}
  status : Int := 0
  wroteHeader : Bool := false

inductive ResponseCall where
  | writeHeader (code : Int)
  | write
  | flush

namespace ResponseWriter

def writeHeader (w : ResponseWriter) (code : Int) : ResponseWriter × Bool :=
  let w := if !w.wroteHeader then { w with status := code, wroteHeader := true } else w
  match w.wire.writeHeader code with
  | some wire => ({ w with wire }, false)
  | none => (w, true)

def write (w : ResponseWriter) : ResponseWriter :=
  let w := if !w.wroteHeader then (w.writeHeader 200).1 else w
  { w with wire := w.wire.write }

def call (w : ResponseWriter) : ResponseCall → ResponseWriter × Bool
  | .writeHeader code => w.writeHeader code
  | .write => (w.write, false)
  | .flush => (w.write, false)

def calls (w : ResponseWriter) : List ResponseCall → ResponseWriter × Bool
  | [] => (w, false)
  | c :: cs =>
    match w.call c with
    | (w, true) => (w, true)
    | (w, false) => w.calls cs

def recovery (w : ResponseWriter) : ResponseWriter :=
  if w.wroteHeader then w else (w.writeHeader 500).1.write

def recorded (w : ResponseWriter) : Int := if w.status = 0 then 200 else w.status

end ResponseWriter

inductive Ending where
  | returns
  | panics
  deriving DecidableEq

def handled (cs : List ResponseCall) (ending : Ending) : ResponseWriter × Bool :=
  let (w, panicked) := ResponseWriter.calls {} cs
  (w, panicked || ending = .panics)

def served (cs : List ResponseCall) (ending : Ending) : ResponseWriter :=
  let (w, panicked) := handled cs ending
  if panicked then w.recovery else w

/-- The final header that `net/http` has sent is the one that was recorded. -/
structure ResponseWriter.Settled (w : ResponseWriter) (code : Int) : Prop where
  status : w.status = code
  wroteHeader : w.wroteHeader = true
  wire : w.wire.status = some code

namespace ResponseWriter
variable {w : ResponseWriter} {code : Int}

theorem Settled.write (h : w.Settled code) : w.write.Settled code := by
  obtain ⟨hstatus, hwrote, hwire⟩ := h
  unfold ResponseWriter.write
  rw [hwrote]
  refine ⟨hstatus, hwrote, ?_⟩
  rw [← hwire]
  exact congrArg (fun status => some (status.getD 200)) hwire |>.trans hwire.symm

theorem Settled.call (h : w.Settled code) (c : ResponseCall) :
    (w.call c).1.Settled code ∧ (w.call c).2 = false := by
  cases c with
  | writeHeader code' =>
    obtain ⟨hstatus, hwrote, hwire⟩ := h
    have hsame : w.wire.writeHeader code' = some w.wire := by
      unfold Wire.writeHeader
      rw [hwire]
      rfl
    unfold ResponseWriter.call writeHeader
    rw [hwrote]
    simp only [Bool.not_true, Bool.false_eq_true, if_false, hsame]
    exact ⟨⟨hstatus, hwrote, hwire⟩, trivial⟩
  | write => exact ⟨h.write, rfl⟩
  | flush => exact ⟨h.write, rfl⟩

theorem calls_cons (w : ResponseWriter) (c : ResponseCall) (cs : List ResponseCall) :
    w.calls (c :: cs) = if (w.call c).2 then w.call c else (w.call c).1.calls cs := by
  rw [ResponseWriter.calls]
  split
  · rename_i heq
    rw [heq]
    rfl
  · rename_i heq
    rw [heq]
    rfl

theorem Settled.calls (h : w.Settled code) (cs : List ResponseCall) :
    (w.calls cs).1.Settled code ∧ (w.calls cs).2 = false := by
  induction cs generalizing w with
  | nil => exact ⟨h, rfl⟩
  | cons c cs ih =>
    obtain ⟨hsettled, hno⟩ := h.call c
    rw [calls_cons, hno, if_neg Bool.false_ne_true]
    exact ih hsettled

theorem Settled.recovery (h : w.Settled code) : w.recovery = w := if_pos h.wroteHeader

theorem Settled.recorded (h : w.Settled code) (hcode : code ≠ 0) :
    w.recorded = w.wire.sent := by
  unfold ResponseWriter.recorded Wire.sent
  rw [h.status, if_neg hcode, h.wire]
  rfl

end ResponseWriter

def FinalCode (code : Int) : Prop := code = 101 ∨ 200 ≤ code ∧ code ≤ 999

theorem settled_writeHeader {code : Int} (h : FinalCode code) :
    (ResponseWriter.writeHeader {} code).1.Settled code ∧
      (ResponseWriter.writeHeader {} code).2 = false := by
  have hwire : Wire.writeHeader {} code = some { status := some code } := by
    unfold FinalCode at h
    have hinformational : ¬ Informational code := by
      unfold Informational
      omega
    unfold Wire.writeHeader
    rw [if_neg (by decide), if_neg (by omega), if_neg hinformational]
  unfold ResponseWriter.writeHeader
  simp only [Bool.not_false, if_true, hwire]
  exact ⟨⟨rfl, rfl, rfl⟩, trivial⟩

/-- The recorded status is an informational one, and the final one is not. -/
structure ResponseWriter.Early (w : ResponseWriter) (code : Int) : Prop where
  status : w.status = code
  wroteHeader : w.wroteHeader = true
  wire : ∀ final, w.wire.status = some final → ¬ Informational final

namespace ResponseWriter
variable {w : ResponseWriter} {code : Int}

theorem Early.write (h : w.Early code) : w.write.Early code := by
  obtain ⟨hstatus, hwrote, hwire⟩ := h
  unfold ResponseWriter.write
  rw [hwrote]
  refine ⟨hstatus, hwrote, fun final hfinal => ?_⟩
  have hfinal : w.wire.status.getD 200 = final := Option.some.inj hfinal
  cases hsent : w.wire.status with
  | none =>
    rw [hsent] at hfinal
    rw [← hfinal]
    decide
  | some status =>
    rw [hsent] at hfinal
    exact hwire final (hsent.trans (congrArg some hfinal))

theorem Early.call (h : w.Early code) (c : ResponseCall) : (w.call c).1.Early code := by
  cases c with
  | writeHeader code' =>
    obtain ⟨hstatus, hwrote, hwire⟩ := h
    unfold ResponseWriter.call writeHeader
    rw [hwrote]
    dsimp only
    split
    · rename_i wire heq
      refine ⟨hstatus, hwrote, fun final hfinal => ?_⟩
      obtain hsame | ⟨hsent, hcode⟩ := Wire.status_writeHeader heq
      · exact hwire final (hsame.symm.trans hfinal)
      · rw [Option.some.inj (hsent.symm.trans hfinal)] at hcode
        exact hcode
    · exact ⟨hstatus, hwrote, hwire⟩
  | write => exact h.write
  | flush => exact h.write

theorem Early.calls (h : w.Early code) (cs : List ResponseCall) : (w.calls cs).1.Early code := by
  induction cs generalizing w with
  | nil => exact h
  | cons c cs ih =>
    rw [calls_cons]
    split_ifs
    · exact h.call c
    · exact ih (h.call c)

theorem Early.recorded (h : w.Early code) (hcode : Informational code) :
    w.recorded ≠ w.wire.sent := by
  have hne : w.status ≠ 0 := by
    rw [h.status]
    rintro rfl
    exact absurd hcode (by decide)
  intro heq
  unfold ResponseWriter.recorded Wire.sent at heq
  rw [if_neg hne, h.status] at heq
  cases hsent : w.wire.status with
  | none =>
    rw [hsent] at heq
    rw [heq] at hcode
    exact absurd hcode (by decide)
  | some final =>
    rw [hsent] at heq
    rw [heq] at hcode
    exact h.wire final hsent hcode

end ResponseWriter

/-- After an informational header nothing corrects the record. -/
theorem early_served {code : Int} (h : Informational code) (rest : List ResponseCall)
    (ending : Ending) : (served (.writeHeader code :: rest) ending).Early code := by
  have hwire : Wire.writeHeader {} code = some { informational := [code] } := by
    have hcode := h.1
    unfold Wire.writeHeader
    rw [if_neg (by decide), if_neg (by omega), if_pos h]
    rfl
  have hcall : ResponseWriter.call {} (.writeHeader code) =
      (⟨{ informational := [code] }, code, true⟩, false) := by
    unfold ResponseWriter.call ResponseWriter.writeHeader
    simp only [Bool.not_false, if_true, hwire]
  have hearly : ResponseWriter.Early ⟨{ informational := [code] }, code, true⟩ code :=
    ⟨rfl, rfl, nofun⟩
  have hafter := hearly.calls rest
  unfold served handled
  rw [ResponseWriter.calls_cons, hcall, if_neg Bool.false_ne_true]
  dsimp only
  split_ifs
  · unfold ResponseWriter.recovery
    rw [if_pos hafter.wroteHeader]
    exact hafter
  · exact hafter

/-- `WriteHeader` has recorded a header when it panics, so no problem is written. -/
theorem invalid_served {code : Int} (h : code < 100 ∨ 999 < code) (rest : List ResponseCall)
    (ending : Ending) : handled (.writeHeader code :: rest) ending = (⟨{}, code, true⟩, true) ∧
      served (.writeHeader code :: rest) ending = ⟨{}, code, true⟩ := by
  have hwire : Wire.writeHeader {} code = none := by
    unfold Wire.writeHeader
    rw [if_neg (by decide), if_pos h]
  have hcall : ResponseWriter.call {} (.writeHeader code) = (⟨{}, code, true⟩, true) := by
    unfold ResponseWriter.call ResponseWriter.writeHeader
    simp only [Bool.not_false, if_true, hwire]
  have hhandled : handled (.writeHeader code :: rest) ending = (⟨{}, code, true⟩, true) := by
    unfold handled
    rw [ResponseWriter.calls_cons, hcall, if_pos rfl]
    rfl
  refine ⟨hhandled, ?_⟩
  unfold served
  rw [hhandled]
  rfl

/-- The recorded status is the one sent, and a panic before a final header is a 500, exactly
where the handler does not begin with a header that is not final. -/
theorem recorded_is_sent (cs : List ResponseCall) (ending : Ending) :
    ((served cs ending).recorded = (served cs ending).wire.sent ∧
      ((handled cs ending).2 = true → (handled cs ending).1.wire.status = none →
        (served cs ending).wire.sent = 500)) ↔
      ∀ code rest, cs = .writeHeader code :: rest → FinalCode code := by
  constructor
  · rintro ⟨hrecorded, hpanic⟩ code rest rfl
    by_cases hinformational : Informational code
    · exact absurd hrecorded ((early_served hinformational rest ending).recorded hinformational)
    · by_cases hinvalid : code < 100 ∨ 999 < code
      · obtain ⟨hhandled, hserved⟩ := invalid_served hinvalid rest ending
        rw [hhandled, hserved] at hpanic
        have hsent : (200 : Int) = 500 := hpanic rfl rfl
        exact absurd hsent (by decide)
      · unfold Informational at hinformational
        unfold FinalCode
        omega
  · intro hfirst
    cases cs with
    | nil => cases ending <;> decide
    | cons c rest =>
      obtain ⟨code, hne, hsettled, hno⟩ : ∃ code, code ≠ 0 ∧
          (ResponseWriter.call {} c).1.Settled code ∧ (ResponseWriter.call {} c).2 = false := by
        cases c with
        | writeHeader code =>
          have hcode := hfirst code rest rfl
          refine ⟨code, ?_, settled_writeHeader hcode⟩
          unfold FinalCode at hcode
          omega
        | write => exact ⟨200, by decide, ⟨rfl, rfl, rfl⟩, rfl⟩
        | flush => exact ⟨200, by decide, ⟨rfl, rfl, rfl⟩, rfl⟩
      obtain ⟨hafter, hno'⟩ := hsettled.calls rest
      have hhandled : handled (c :: rest) ending =
          (((ResponseWriter.call {} c).1.calls rest).1, decide (ending = .panics)) := by
        unfold handled
        rw [ResponseWriter.calls_cons, hno, if_neg Bool.false_ne_true]
        dsimp only
        rw [hno', Bool.false_or]
      have hserved : served (c :: rest) ending = ((ResponseWriter.call {} c).1.calls rest).1 := by
        unfold served
        rw [hhandled]
        dsimp only
        split_ifs
        · exact hafter.recovery
        · rfl
      rw [hserved, hhandled]
      refine ⟨hafter.recorded hne, fun _ hnone => ?_⟩
      rw [hafter.wire] at hnone
      cases hnone

/-- 103 and then 404: the log says 103. A panic after 103 is answered with 200. -/
theorem earlyHints_recorded :
    (served [.writeHeader 103, .writeHeader 404] .returns).recorded = 103 ∧
      (served [.writeHeader 103, .writeHeader 404] .returns).wire.sent = 404 ∧
      (handled [.writeHeader 103] .panics).1.wire.status = none ∧
      (served [.writeHeader 103] .panics).wire.sent = 200 := by
  decide

end GolangBasics.Httpx
