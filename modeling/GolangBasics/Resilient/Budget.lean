import GolangBasics.Resilient.WindowHistory
import Mathlib.Algebra.Order.BigOperators.Group.List
import Mathlib.Algebra.Order.Field.Rat
import Mathlib.Algebra.Order.Group.Nat
import Mathlib.Data.List.Induction
import Mathlib.Tactic.Linarith

/-! The retry budget of `libs/resilient-http-client`. Both methods hold `b.mu` from the clock
reading to the end, so the calls come one after the other. The ratio is a rational number. -/
namespace GolangBasics.Resilient
open Conc List

structure RetryBudget where
  w : Window
  ratio : ℚ
  minRetries : Int

def newRetryBudget (window : Int) (ratio : ℚ) (minRetries : Int) : Option RetryBudget :=
  if window ≤ 0 then none else some ⟨newWindow window.toNat, ratio, minRetries⟩

namespace RetryBudget

/-- `request`; a nil budget counts nothing. -/
def request (b : Option RetryBudget) (now : Nat) : Option RetryBudget :=
  match b with
  | none => none
  | some b => some { b with w := b.w.add now 1 0 }

def tryRetry (b : Option RetryBudget) (now : Nat) : Bool × Option RetryBudget :=
  match b with
  | none => (true, none)
  | some b =>
    let (requests, retries) := b.w.sum now
    if (b.minRetries : ℚ) + b.ratio * requests ≤ retries then (false, some b)
    else (true, some { b with w := b.w.add now 0 1 })

inductive Call where
  | request (now : Nat)
  | tryRetry (now : Nat)

def Call.now : Call → Nat
  | request now | tryRetry now => now

/-- What has been counted: a request, or a retry that was granted. -/
inductive Spent where
  | request (now : Nat)
  | retry (now : Nat)
  deriving DecidableEq

namespace Spent

def now : Spent → Nat
  | request now | retry now => now

def isRequest : Spent → Bool
  | request _ => true
  | retry _ => false

def isRetry : Spent → Bool
  | request _ => false
  | retry _ => true

def entry : Spent → Entry
  | request now => ⟨now, 1, 0⟩
  | retry now => ⟨now, 0, 1⟩

end Spent

def call (s : Option RetryBudget × List Spent) : Call → Option RetryBudget × List Spent
  | .request now => (request s.1 now, .request now :: s.2)
  | .tryRetry now =>
    let (granted, b) := tryRetry s.1 now
    (b, if granted then .retry now :: s.2 else s.2)

def run (b : Option RetryBudget) (calls : List Call) : Option RetryBudget × List Spent :=
  calls.foldl call (b, [])

/-- How many of a kind were counted in the ten slots of `unit` that end at `now`. -/
def within (unit now : Nat) (kind : Spent → Bool) (log : List Spent) : Nat :=
  log.countP fun x => kind x && inWindow unit now x.now

/-- How many of a kind were counted in the ten slots from `first` on. -/
def inSlots (unit first : Nat) (kind : Spent → Bool) (log : List Spent) : Nat :=
  log.countP fun x => kind x && decide (first ≤ x.now / unit ∧ x.now / unit < first + windowSlots)

structure Tracks (unit : Nat) (b : RetryBudget) (log : List Spent) : Prop where
  slot : b.w.slot = unit
  holds : b.w.Holds ((survivors (fun new old => spares unit new.now old.now) log).map Spent.entry)

/-- Every retry of the history was granted by the rule, at its time. -/
def Lawful (unit : Nat) (ratio : ℚ) (minRetries : Int) : List Spent → Prop
  | [] => True
  | .request _ :: log => Lawful unit ratio minRetries log
  | .retry now :: log =>
    (within unit now Spent.isRetry log : ℚ) <
        minRetries + ratio * within unit now Spent.isRequest log ∧
      Lawful unit ratio minRetries log

variable {unit : Nat} {b : RetryBudget} {log : List Spent}

theorem Tracks.add (h : Tracks unit b log) (x : Spent) :
    Tracks unit { b with w := b.w.add x.now x.entry.a x.entry.b } (x :: log) := by
  have htime : ∀ y : Spent, y.entry.now = y.now := by
    intro y
    cases y <;> rfl
  have hadd := h.holds.add x.entry
  rw [filter_map, h.slot] at hadd
  refine ⟨h.slot, ?_⟩
  simp only [survivors, map_cons]
  simpa only [Function.comp_def, htime] using hadd

theorem sum_entry (xs : List Spent) :
    ((xs.map Spent.entry).map Entry.a).sum = xs.countP Spent.isRequest ∧
      ((xs.map Spent.entry).map Entry.b).sum = xs.countP Spent.isRetry := by
  induction xs with
  | nil => exact ⟨rfl, rfl⟩
  | cons x xs ih =>
    simp only [map_cons, sum_cons, countP_cons, ih.1, ih.2]
    cases x with
    | request now => simp [Spent.entry, Spent.isRequest, Spent.isRetry, Int.add_comm]
    | retry now => simp [Spent.entry, Spent.isRequest, Spent.isRetry, Int.add_comm]

/-- What `tryRetry` reads off the ring is what was counted in the last ten slots. -/
theorem Tracks.sum (h : Tracks unit b log)
    (hsorted : log.Pairwise fun new old => old.now ≤ new.now) {now : Nat}
    (hlast : ∀ x ∈ log, x.now ≤ now) :
    b.w.sum now =
      ((within unit now Spent.isRequest log : Int), (within unit now Spent.isRetry log : Int)) := by
  have hentries : ((survivors (fun new old => spares unit new.now old.now) log).map
      Spent.entry).filter (fun e => inWindow unit now e.now) =
        (log.filter fun x => inWindow unit now x.now).map Spent.entry := by
    rw [filter_map, ← filter_survivors_of_sorted hsorted hlast]
    congr 2
    funext x
    cases x <;> rfl
  have hcount : ∀ kind : Spent → Bool,
      (log.filter fun x => inWindow unit now x.now).countP kind = within unit now kind log := by
    intro kind
    rw [countP_filter]
    rfl
  rw [h.holds.sum, h.slot, hentries, (sum_entry _).1, (sum_entry _).2, hcount, hcount]

/-- The state of a run so far, `last` being its latest clock reading. -/
structure Reached (unit : Nat) (ratio : ℚ) (minRetries : Int) (last : Nat)
    (s : Option RetryBudget × List Spent) : Prop where
  tracks : ∃ b, s.1 = some b ∧ b.ratio = ratio ∧ b.minRetries = minRetries ∧ Tracks unit b s.2
  sorted : s.2.Pairwise fun new old => old.now ≤ new.now
  past : ∀ x ∈ s.2, x.now ≤ last
  lawful : Lawful unit ratio minRetries s.2

variable {ratio : ℚ} {minRetries : Int} {last now : Nat} {s : Option RetryBudget × List Spent}

theorem Reached.wait (h : Reached unit ratio minRetries last s) (hnow : last ≤ now) :
    Reached unit ratio minRetries now s :=
  ⟨h.tracks, h.sorted, fun x hx => (h.past x hx).trans hnow, h.lawful⟩

theorem Reached.spend (h : Reached unit ratio minRetries last s) {x : Spent} (hnow : last ≤ x.now)
    {b : RetryBudget} (hb : s.1 = some b) (hlawful : Lawful unit ratio minRetries (x :: s.2)) :
    Reached unit ratio minRetries x.now
      (some { b with w := b.w.add x.now x.entry.a x.entry.b }, x :: s.2) := by
  obtain ⟨b', hb', hratio, hmin, htracks⟩ := h.tracks
  obtain rfl : b = b' := Option.some.inj (hb.symm.trans hb')
  refine ⟨⟨_, rfl, hratio, hmin, htracks.add x⟩, ?_, ?_, hlawful⟩
  · exact pairwise_cons.mpr ⟨fun y hy => (h.past y hy).trans hnow, h.sorted⟩
  · intro y hy
    rcases mem_cons.mp hy with rfl | hy
    · exact le_refl _
    · exact (h.past y hy).trans hnow

/-- The rule of `tryRetry` in terms of the history. -/
theorem Reached.granted_iff (h : Reached unit ratio minRetries last s) (hnow : last ≤ now) :
    (tryRetry s.1 now).1 = true ↔
      (within unit now Spent.isRetry s.2 : ℚ) <
        minRetries + ratio * within unit now Spent.isRequest s.2 := by
  obtain ⟨b, hb, hratio, hmin, htracks⟩ := h.tracks
  have hsum := htracks.sum h.sorted fun x hx => (h.past x hx).trans hnow
  rw [hb]
  unfold tryRetry
  simp only [hsum, hratio, hmin, Int.cast_natCast]
  split
  · rename_i hfull
    simpa using hfull
  · rename_i hroom
    simpa using hroom

theorem tryRetry_next (b : RetryBudget) (now : Nat) :
    (tryRetry (some b) now).2 =
      if (tryRetry (some b) now).1 then some { b with w := b.w.add now 0 1 } else some b := by
  unfold tryRetry
  dsimp only
  split <;> rfl

theorem Reached.call (h : Reached unit ratio minRetries last s) {c : Call} (hnow : last ≤ c.now) :
    Reached unit ratio minRetries c.now (call s c) := by
  obtain ⟨b, hb, -⟩ := h.tracks
  cases c with
  | request now =>
    have hspend := h.spend (x := .request now) hnow hb h.lawful
    simp only [RetryBudget.call, request, hb]
    exact hspend
  | tryRetry now =>
    have hrule := h.granted_iff hnow
    have hnext := tryRetry_next b now
    rw [← hb] at hnext
    by_cases hgranted : (tryRetry s.1 now).1
    · have hspend := h.spend (x := .retry now) hnow hb ⟨hrule.mp hgranted, h.lawful⟩
      rw [if_pos hgranted] at hnext
      simp only [RetryBudget.call, hgranted, hnext, if_true]
      exact hspend
    · rw [if_neg hgranted] at hnext
      simp only [RetryBudget.call, hgranted, hnext, if_false, Bool.false_eq_true]
      exact h.wait hnow

theorem reached_run {window : Int} (hb : newRetryBudget window ratio minRetries = some b)
    (calls : List Call) (hclock : (calls.map Call.now).Pairwise (· ≤ ·))
    (hnow : ∀ c ∈ calls, c.now ≤ now) :
    Reached (newWindow window.toNat).slot ratio minRetries now (run (some b) calls) := by
  induction calls using List.reverseRecOn generalizing now with
  | nil =>
    unfold newRetryBudget at hb
    split at hb
    · cases hb
    · cases hb
      have htracks : Tracks (newWindow window.toNat).slot
          ⟨newWindow window.toNat, ratio, minRetries⟩ [] := ⟨rfl, holds_new _⟩
      exact ⟨⟨_, rfl, rfl, rfl, htracks⟩, List.Pairwise.nil, by simp [run], trivial⟩
  | append_singleton calls c ih =>
    rw [map_append, pairwise_append] at hclock
    have hbefore : ∀ x ∈ calls, x.now ≤ c.now := by
      intro x hx
      exact hclock.2.2 x.now (mem_map_of_mem hx) c.now (by simp)
    have hstep := (ih hclock.1 hbefore).call (le_refl c.now)
    have hrun : run (some b) (calls ++ [c]) = call (run (some b) calls) c := by
      simp [run]
    rw [hrun]
    exact hstep.wait (hnow c (by simp))

theorem lawful_of_append {later : List Spent} {x : Spent}
    (h : Lawful unit ratio minRetries (later ++ x :: log)) :
    Lawful unit ratio minRetries (x :: log) := by
  induction later with
  | nil => exact h
  | cons y later ih =>
    cases y with
    | request now => exact ih h
    | retry now => exact ih h.2

/-- The bound for ten slots from the rule at the last grant in them: what was granted before
it in these slots had not slid out of the window then. -/
theorem Lawful.bound (h : Lawful unit ratio minRetries log) {first : Nat}
    (hpos : 0 < inSlots unit first Spent.isRetry log) :
    ∃ later last earlier, log = later ++ .retry last :: earlier ∧ first ≤ last / unit ∧
      last / unit < first + windowSlots ∧ inSlots unit first Spent.isRetry later = 0 ∧
      (inSlots unit first Spent.isRetry log : ℚ) <
        minRetries + ratio * within unit last Spent.isRequest earlier + 1 := by
  obtain ⟨x, hx, hpx⟩ := countP_pos_iff.mp hpos
  have hfound : (log.find? fun x => x.isRetry &&
      decide (first ≤ x.now / unit ∧ x.now / unit < first + windowSlots)).isSome :=
    List.find?_isSome.mpr ⟨x, hx, hpx⟩
  obtain ⟨y, hy⟩ := Option.isSome_iff_exists.mp hfound
  obtain ⟨hpy, later, earlier, rfl, hlater⟩ := List.find?_eq_some_iff_append.mp hy
  simp only [Bool.and_eq_true, decide_eq_true_eq] at hpy
  obtain ⟨hretry, hfrom, hto⟩ := hpy
  cases y with
  | request now => cases hretry
  | retry last =>
    have hnone : inSlots unit first Spent.isRetry later = 0 := by
      refine countP_eq_zero.mpr fun z hz => ?_
      have hno := hlater z hz
      rw [Bool.not_eq_true'] at hno
      rw [hno]
      exact Bool.false_ne_true
    have hrule := (lawful_of_append h).1
    have hfew :
        inSlots unit first Spent.isRetry earlier ≤ within unit last Spent.isRetry earlier := by
      refine countP_mono_left fun z _ hz => ?_
      simp only [Bool.and_eq_true, decide_eq_true_eq, inWindow] at hz ⊢
      have hlast : last / unit < first + windowSlots := hto
      exact ⟨hz.1, by omega⟩
    have hall : inSlots unit first Spent.isRetry (later ++ .retry last :: earlier) =
        inSlots unit first Spent.isRetry earlier + 1 := by
      have hself : first ≤ last / unit ∧ last / unit < first + windowSlots := ⟨hfrom, hto⟩
      unfold inSlots at hnone ⊢
      rw [countP_append, hnone, countP_cons]
      simp [Spent.isRetry, Spent.now, hself]
    refine ⟨later, last, earlier, rfl, hfrom, hto, hnone, ?_⟩
    have hfew : (inSlots unit first Spent.isRetry earlier : ℚ) ≤
        within unit last Spent.isRetry earlier := by exact_mod_cast hfew
    rw [hall]
    push_cast
    linarith

/-- `tryRetry` grants exactly when fewer retries were granted in the last ten slots than the
requests counted there allow. So in any ten slots fewer retries are granted than the requests
counted by the time of the last grant allow, and one. -/
theorem retry_budget_bound (window : Int) (ratio : ℚ) (minRetries : Int) (b : RetryBudget)
    (hb : newRetryBudget window ratio minRetries = some b) (calls : List Call)
    (hclock : (calls.map Call.now).Pairwise (· ≤ ·)) :
    let unit := (newWindow window.toNat).slot
    (∀ before now after, calls = before ++ .tryRetry now :: after →
      let s := run (some b) before
      ((tryRetry s.1 now).1 = true ↔ (within unit now Spent.isRetry s.2 : ℚ) <
        minRetries + ratio * within unit now Spent.isRequest s.2)) ∧
    ∀ first, let log := (run (some b) calls).2
      0 < inSlots unit first Spent.isRetry log →
      ∃ later last earlier, log = later ++ .retry last :: earlier ∧ first ≤ last / unit ∧
        last / unit < first + windowSlots ∧ inSlots unit first Spent.isRetry later = 0 ∧
        (inSlots unit first Spent.isRetry log : ℚ) <
          minRetries + ratio * within unit last Spent.isRequest earlier + 1 := by
  intro unit
  constructor
  · rintro before now after rfl
    rw [map_append, pairwise_append] at hclock
    have hpast : ∀ c ∈ before, c.now ≤ now := by
      intro c hc
      exact hclock.2.2 c.now (mem_map_of_mem hc) now (by simp [Call.now])
    exact (reached_run hb before hclock.1 hpast).granted_iff (le_refl now)
  · intro first log hpos
    have hlast : ∀ c ∈ calls, c.now ≤ (calls.map Call.now).sum := by
      intro c hc
      exact le_sum_of_mem (mem_map_of_mem hc)
    exact (reached_run hb calls hclock hlast).lawful.bound hpos

/-- Two retries for nothing and one more for two requests. -/
theorem retry_budget_bound_third :
    newRetryBudget 100 (1 / 2) 2 = some ⟨newWindow 100, 1 / 2, 2⟩ ∧
      (tryRetry (run (some ⟨newWindow 100, 1 / 2, 2⟩)
        [.request 0, .request 12, .tryRetry 20, .tryRetry 20]).1 20).1 = true := by
  refine ⟨rfl, ?_⟩
  have hrule := (retry_budget_bound 100 (1 / 2) 2 ⟨newWindow 100, 1 / 2, 2⟩ rfl
    [.request 0, .request 12, .tryRetry 20, .tryRetry 20, .tryRetry 20] (by decide)).1
    [.request 0, .request 12, .tryRetry 20, .tryRetry 20] 20 [] rfl
  refine hrule.mpr ?_
  decide +kernel

end RetryBudget

end GolangBasics.Resilient
