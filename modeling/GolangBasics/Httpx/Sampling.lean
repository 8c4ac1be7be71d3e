import GolangBasics.Errors
import Mathlib.Algebra.Ring.Int.Defs
import Mathlib.Algebra.Ring.Nat
import Mathlib.Logic.Function.Basic
import Mathlib.Tactic.SplitIfs

/-! The sampling of debug and info records in `libs/httpx`. Records are handled in the order in
which they take the lock of their counter. -/
namespace GolangBasics.Httpx
open List

def toInt64 (x : Int) : Int := x.bmod (2 ^ 64)

def zeroTime : Int := -62135596800 * 1000000000

/-- A record, whether its context is marked by `WithDebugLogging`, and the clock when it is
handled. Levels are `slog`'s numbers. -/
structure LogEntry where
  level : Int
  message : Bytes
  time : Int
  debug : Bool
  clock : Int

def levelWarn : Int := 4

/-- Neither a warning or an error nor marked. -/
def LogEntry.sampled (e : LogEntry) : Bool := !(levelWarn ≤ e.level || e.debug)

/-- `now` in `Handle`: `UnixNano` of the record's time, and the clock in place of 0. -/
def LogEntry.now (e : LogEntry) : Int :=
  let now := toInt64 e.time
  if now = 0 then toInt64 e.clock else now

def samplingSlots : UInt64 := 4096

def fnv64a (s : Bytes) : UInt64 :=
  s.foldl (fun hash b => (hash ^^^ UInt64.ofNat b.toNat) * 1099511628211) 14695981039346656037

def LogEntry.slot (e : LogEntry) : Nat :=
  ((fnv64a e.message ^^^ UInt64.ofNat ((e.level + 128) % 2 ^ 64).toNat) % samplingSlots).toNat

structure SampleCounter where
  resetAt : Int := 0
  n : Nat := 0

def SampleCounter.inc (c : SampleCounter) (now tick : Int) : Nat × SampleCounter :=
  let c : SampleCounter := if c.resetAt ≤ now then ⟨toInt64 (now + tick), 0⟩ else c
  let c := { c with n := c.n + 1 }
  (c.n, c)

structure Sampler where
  initial : Nat
  thereafter : Nat
  tick : Int

def newSamplingHandler (initial thereafter tick : Int) : Sampler where
  initial := (initial % 2 ^ 64).toNat
  thereafter := if thereafter ≤ 0 then 100 else thereafter.toNat
  tick := if tick ≤ 0 then 1000000000 else tick

/-- The counters by slot, and the dropped debug and info records. A handler that was derived
by `WithAttrs` or `WithGroup` shares them. -/
structure SamplerState where
  counters : Nat → SampleCounter := fun _ => {}
  debug : Nat := 0
  info : Nat := 0

namespace Sampler
variable (h : Sampler)

def passes (n : Nat) : Bool := n ≤ h.initial || (n - h.initial) % h.thereafter == 0

/-- `samplingHandler.Handle`: whether the record is passed on. -/
def handle (s : SamplerState) (e : LogEntry) : Bool × SamplerState :=
  if levelWarn ≤ e.level || e.debug then (true, s)
  else
    let (n, c) := (s.counters e.slot).inc e.now h.tick
    let s := { s with counters := Function.update s.counters e.slot c }
    if h.passes n then (true, s)
    else if 0 ≤ e.level then (false, { s with info := s.info + 1 })
    else (false, { s with debug := s.debug + 1 })

def trace (s : SamplerState) : List LogEntry → List (LogEntry × Bool) × SamplerState
  | [] => ([], s)
  | e :: es =>
    let (passed, s') := h.handle s e
    let (rest, last) := trace s' es
    ((e, passed) :: rest, last)

def slotTrace (time : LogEntry → Int) (entries : List LogEntry) (slot : Nat) :
    List (Int × Bool) :=
  ((h.trace {} entries).1.filter fun x => x.1.sampled && x.1.slot == slot).map
    fun x => (time x.1, x.2)

end Sampler

/-- The windows of a stream: a new one starts with each record that comes a tick or more after
the start of the current one. -/
def windowsFrom (tick start : Int) (current : List (Int × Bool)) :
    List (Int × Bool) → List (List (Int × Bool))
  | [] => [current]
  | x :: xs =>
    if start + tick ≤ x.1 then current :: windowsFrom tick x.1 [x] xs
    else windowsFrom tick start (current ++ [x]) xs

def windows (tick : Int) : List (Int × Bool) → List (List (Int × Bool))
  | [] => []
  | x :: xs => windowsFrom tick x.1 [x] xs

section
variable {c : SampleCounter} {now tick : Int}

theorem SampleCounter.inc_over (h : c.resetAt ≤ now) :
    c.inc now tick = (1, ⟨toInt64 (now + tick), 1⟩) := by
  unfold inc
  rw [if_pos h]

theorem SampleCounter.inc_within (h : ¬ c.resetAt ≤ now) :
    c.inc now tick = (c.n + 1, ⟨c.resetAt, c.n + 1⟩) := by
  unfold inc
  rw [if_neg h]

end

variable {es : List LogEntry}

namespace Sampler
variable (h : Sampler)

theorem handle_unsampled (s : SamplerState) {e : LogEntry} (he : e.sampled = false) :
    h.handle s e = (true, s) := by
  unfold LogEntry.sampled at he
  simp only [Bool.not_eq_false'] at he
  unfold handle
  rw [if_pos he]

theorem handle_sampled (s : SamplerState) {e : LogEntry} (he : e.sampled = true) :
    (h.handle s e).1 = h.passes ((s.counters e.slot).inc e.now h.tick).1 ∧
      (h.handle s e).2.counters =
        Function.update s.counters e.slot ((s.counters e.slot).inc e.now h.tick).2 := by
  unfold LogEntry.sampled at he
  unfold handle
  rw [if_neg (by simpa using he)]
  dsimp only
  split_ifs with hpass
  · exact ⟨hpass.symm, rfl⟩
  · exact ⟨(Bool.eq_false_iff.mpr hpass).symm, rfl⟩
  · exact ⟨(Bool.eq_false_iff.mpr hpass).symm, rfl⟩

theorem handle_counts (s : SamplerState) (e : LogEntry) :
    (h.handle s e).1.toNat + (h.handle s e).2.debug + (h.handle s e).2.info =
      s.debug + s.info + 1 := by
  unfold handle
  dsimp only
  split_ifs
  all_goals
    simp only [Bool.toNat_true, Bool.toNat_false]
    omega

theorem trace_counts (s : SamplerState) (entries : List LogEntry) :
    (h.trace s entries).1.countP (·.2) + (h.trace s entries).2.debug +
      (h.trace s entries).2.info = s.debug + s.info + entries.length := by
  induction entries generalizing s with
  | nil => simp [trace]
  | cons e es ih =>
    have hhead := h.handle_counts s e
    have hrest := ih (h.handle s e).2
    simp only [trace, countP_cons, length_cons]
    cases hpassed : (h.handle s e).1 with
    | true =>
      rw [hpassed, Bool.toNat_true] at hhead
      simp only [if_true]
      omega
    | false =>
      rw [hpassed, Bool.toNat_false] at hhead
      simp only [Bool.false_eq_true, if_false]
      omega

def counterTrace (time : LogEntry → Int) (c : SampleCounter) : List LogEntry → List (Int × Bool)
  | [] => []
  | e :: es =>
    (time e, h.passes (c.inc e.now h.tick).1) :: counterTrace time (c.inc e.now h.tick).2 es

/-- A counter is moved by the sampled records of its own slot only. -/
theorem filter_trace (time : LogEntry → Int) (slot : Nat) (s : SamplerState)
    (entries : List LogEntry) :
    ((h.trace s entries).1.filter fun x => x.1.sampled && x.1.slot == slot).map
        (fun x => (time x.1, x.2)) =
      h.counterTrace time (s.counters slot)
        (entries.filter fun e => e.sampled && e.slot == slot) := by
  induction entries generalizing s with
  | nil => rfl
  | cons e es ih =>
    have hrest := ih (h.handle s e).2
    cases hsampled : e.sampled with
    | false =>
      rw [h.handle_unsampled s hsampled] at hrest
      simp only [trace, filter_cons, hsampled, Bool.false_and, Bool.false_eq_true, if_false,
        h.handle_unsampled s hsampled, hrest]
    | true =>
      obtain ⟨hpassed, hcounters⟩ := h.handle_sampled s hsampled
      by_cases hslot : e.slot = slot
      · rw [hcounters, hslot, Function.update_self] at hrest
        rw [hslot] at hpassed
        simp only [trace, filter_cons, hsampled, hslot, beq_self_eq_true, Bool.and_self,
          if_true, map_cons, counterTrace, hpassed, hrest]
      · rw [hcounters, Function.update_of_ne (Ne.symm hslot)] at hrest
        simp only [trace, filter_cons, hsampled, beq_false_of_ne hslot, Bool.and_false,
          Bool.false_eq_true, if_false, hrest]

def Metered (w : List (Int × Bool)) : Prop :=
  w.map Prod.snd = (List.range w.length).map fun i => h.passes (i + 1)

variable {h}
  {w : List (Int × Bool)}

theorem Metered.concat (hw : h.Metered w) (t : Int) :
    h.Metered (w ++ [(t, h.passes (w.length + 1))]) := by
  unfold Metered at hw ⊢
  rw [map_append, hw, length_append, length_singleton, range_succ,
    map_append]
  rfl

theorem metered_singleton (t : Int) : h.Metered [(t, h.passes 1)] := rfl

/-- The `n`-th record of a window moves the counter to `n`. -/
theorem windowsFrom_metered {time : LogEntry → Int} {start : Int} {current : List (Int × Bool)}
    {c : SampleCounter} (hreset : c.resetAt = start + h.tick) (hn : c.n = current.length)
    (hcurrent : h.Metered current)
    (hes : ∀ e ∈ es, e.now = time e ∧ toInt64 (time e + h.tick) = time e + h.tick) :
    ∀ w ∈ windowsFrom h.tick start current (h.counterTrace time c es), h.Metered w := by
  induction es generalizing start current c with
  | nil =>
    intro w hw
    rw [mem_singleton.mp hw]
    exact hcurrent
  | cons e es ih =>
    obtain ⟨⟨hnow, hwrap⟩, hrest⟩ := forall_mem_cons.mp hes
    unfold counterTrace windowsFrom
    dsimp only
    by_cases hover : start + h.tick ≤ time e
    · have hinc : c.inc e.now h.tick = (1, ⟨time e + h.tick, 1⟩) := by
        rw [hnow, SampleCounter.inc_over (hreset ▸ hover), hwrap]
      rw [if_pos hover, hinc]
      refine forall_mem_cons.mpr ⟨hcurrent, ih rfl rfl (metered_singleton _) hrest⟩
    · have hinc : c.inc e.now h.tick =
          (current.length + 1, ⟨start + h.tick, current.length + 1⟩) := by
        rw [hnow, SampleCounter.inc_within (hreset ▸ hover), hn, hreset]
      rw [if_neg hover, hinc]
      refine ih rfl ?_ (hcurrent.concat _) hrest
      rw [length_append, length_singleton]

theorem windows_metered {time : LogEntry → Int}
    (hes : ∀ e ∈ es, 0 ≤ e.now ∧ e.now = time e ∧ toInt64 (time e + h.tick) = time e + h.tick) :
    ∀ w ∈ windows h.tick (h.counterTrace time {} es), h.Metered w := by
  cases es with
  | nil => nofun
  | cons e es =>
    obtain ⟨⟨hpos, hnow, hwrap⟩, hrest⟩ := forall_mem_cons.mp hes
    have hinc : SampleCounter.inc {} e.now h.tick = (1, ⟨time e + h.tick, 1⟩) := by
      rw [SampleCounter.inc_over hpos, hnow, hwrap]
    unfold counterTrace windows
    rw [hinc]
    exact windowsFrom_metered rfl rfl (metered_singleton _) fun e he => (hrest e he).2

theorem passes_count (n : Nat) :
    (List.range n).countP (fun i => h.passes (i + 1)) =
      min n h.initial + (n - h.initial) / h.thereafter := by
  induction n with
  | zero => simp
  | succ n ih =>
    rw [range_succ, countP_append, ih, countP_singleton]
    unfold passes
    by_cases hle : n + 1 ≤ h.initial
    · have hzero : n - h.initial = 0 := by omega
      have hzero' : n + 1 - h.initial = 0 := by omega
      simp only [hle, decide_true, Bool.true_or, if_true, hzero, hzero', Nat.zero_div]
      omega
    · have hsucc : n + 1 - h.initial = n - h.initial + 1 := by omega
      simp only [hle, decide_false, Bool.false_or, beq_iff_eq, hsucc, Nat.succ_div,
        Nat.dvd_iff_mod_eq_zero]
      omega

theorem Metered.count (hw : h.Metered w) :
    w.countP (·.2) = min w.length h.initial + (w.length - h.initial) / h.thereafter := by
  have hcount : w.countP (·.2) = (w.map Prod.snd).countP id := by
    rw [countP_map]
    rfl
  rw [hcount, hw, countP_map]
  exact passes_count w.length

theorem Metered.take_initial (hw : h.Metered w) : ∀ x ∈ w.take h.initial, x.2 = true := by
  intro x hx
  have hmem : x.2 ∈ (w.map Prod.snd).take h.initial := by
    rw [← map_take]
    exact mem_map_of_mem hx
  rw [hw, ← map_take, take_range] at hmem
  obtain ⟨i, hi, hpass⟩ := mem_map.mp hmem
  have hlt := mem_range.mp hi
  rw [← hpass, passes, decide_eq_true (by omega), Bool.true_or]

end Sampler

theorem toInt64_eq {x : Int} (hlow : -2 ^ 63 ≤ x) (hhigh : x < 2 ^ 63) : toInt64 x = x := by
  unfold toInt64
  rw [Int.bmod_eq_of_le (by omega) (by omega)]

/-- A time after the epoch, a tick or more below the limit of `UnixNano`. -/
def LogEntry.Timed (e : LogEntry) (tick : Int) : Prop := 0 < e.time ∧ e.time + tick < 2 ^ 63

instance (e : LogEntry) (tick : Int) : Decidable (e.Timed tick) :=
  inferInstanceAs (Decidable (_ ∧ _))

theorem LogEntry.Timed.now_eq {e : LogEntry} {tick : Int} (he : e.Timed tick) (htick : 0 < tick) :
    0 ≤ e.now ∧ e.now = e.time ∧ toInt64 (e.time + tick) = e.time + tick := by
  obtain ⟨hpos, hlimit⟩ := he
  have htime : toInt64 e.time = e.time := toInt64_eq (by omega) (by omega)
  have hnow : e.now = e.time := by
    unfold now
    rw [htime, if_neg (by omega)]
  exact ⟨by omega, hnow, toInt64_eq (by omega) hlimit⟩

theorem newSamplingHandler_tick (initial thereafter tick : Int) :
    0 < (newSamplingHandler initial thereafter tick).tick := by
  unfold newSamplingHandler
  dsimp only
  split_ifs <;> omega

/-- In each window of a slot's records the first `initial` are passed on and then every
`thereafter`-th. What is not passed on is counted as dropped, and the records that are not
sampled pass without a trace. -/
theorem sampling_counts (initial thereafter tick : Int) (entries : List LogEntry) :
    let h := newSamplingHandler initial thereafter tick
    (∀ slot, (∀ e ∈ entries, e.sampled = true → e.slot = slot → e.Timed h.tick) →
      ∀ w ∈ windows h.tick (h.slotTrace LogEntry.time entries slot),
        w.countP (·.2) = min w.length h.initial + (w.length - h.initial) / h.thereafter) ∧
    (h.trace {} entries).1.countP (·.2) +
      ((h.trace {} entries).2.debug + (h.trace {} entries).2.info) = entries.length ∧
    ∀ s e, e.sampled = false → h.handle s e = (true, s) := by
  intro h
  refine ⟨fun slot htimed => ?_, ?_, fun s e he => h.handle_unsampled s he⟩
  · unfold Sampler.slotTrace
    rw [h.filter_trace]
    intro w hw
    refine (Sampler.windows_metered (fun e he => ?_) w hw).count
    obtain ⟨hmem, hslot⟩ := mem_filter.mp he
    rw [Bool.and_eq_true, beq_iff_eq] at hslot
    exact (htimed e hmem hslot.1 hslot.2).now_eq (newSamplingHandler_tick initial thereafter tick)
  · have hcounts : _ = 0 + 0 + entries.length := h.trace_counts {} entries
    omega

/-- Three records of one window, of which one is passed on, and one of the next. -/
theorem sampling_counts_burst :
    (windows 10 ((newSamplingHandler 1 3 10).slotTrace LogEntry.time
        ([1, 2, 3, 11].map fun t => ⟨0, [], t, false, t⟩) 933)).map List.length = [3, 1] ∧
    ∀ w ∈ windows 10 ((newSamplingHandler 1 3 10).slotTrace LogEntry.time
        ([1, 2, 3, 11].map fun t => ⟨0, [], t, false, t⟩) 933),
      w.countP (·.2) = min w.length 1 + (w.length - 1) / 3 :=
  ⟨by decide,
    (sampling_counts 1 3 10 ([1, 2, 3, 11].map fun t => ⟨0, [], t, false, t⟩)).1 933 (by decide)⟩

/-- When a record counts: a record without a time at the clock at which it is handled. -/
def LogEntry.effectiveTime (e : LogEntry) : Int := if e.time = zeroTime then e.clock else e.time

/-- Records without a time count in whatever window there is: `UnixNano` of `time.Time{}` is not
0 but far below every reset time. -/
theorem untimed_metered {h : Sampler} {current : List (Int × Bool)} {c : SampleCounter}
    (hreset : 0 ≤ c.resetAt) (hn : c.n = current.length) (hcurrent : h.Metered current)
    (hes : ∀ e ∈ es, e.time = zeroTime) :
    h.Metered (current ++ h.counterTrace LogEntry.effectiveTime c es) := by
  induction es generalizing current c with
  | nil =>
    rw [Sampler.counterTrace, append_nil]
    exact hcurrent
  | cons e es ih =>
    obtain ⟨he, hrest⟩ := forall_mem_cons.mp hes
    have hnow : e.now < 0 := by
      unfold LogEntry.now
      rw [he, if_neg (by decide)]
      decide
    have hinc : c.inc e.now h.tick = (current.length + 1, ⟨c.resetAt, current.length + 1⟩) := by
      rw [SampleCounter.inc_within (by omega), hn]
    unfold Sampler.counterTrace
    rw [hinc, append_cons]
    refine ih hreset ?_ (hcurrent.concat _) hrest
    rw [length_append, length_singleton]

/-- The budget is there again in every window of records that carry a time. Of records without
one, however long they go on, only `initial` are passed on in full. -/
theorem sampling_renews (initial thereafter tick : Int) (entries : List LogEntry) (slot : Nat) :
    let h := newSamplingHandler initial thereafter tick
    ((∀ e ∈ entries, e.sampled = true → e.slot = slot → e.Timed h.tick) →
      ∀ w ∈ windows h.tick (h.slotTrace LogEntry.effectiveTime entries slot),
        ∀ x ∈ w.take h.initial, x.2 = true) ∧
    ((∀ e ∈ entries, e.sampled = true → e.slot = slot → e.time = zeroTime) →
      h.Metered (h.slotTrace LogEntry.effectiveTime entries slot)) := by
  intro h
  have hmem {e : LogEntry} (he : e ∈ entries.filter fun e => e.sampled && e.slot == slot) :
      e ∈ entries ∧ e.sampled = true ∧ e.slot = slot := by
    obtain ⟨hmem, hslot⟩ := mem_filter.mp he
    rw [Bool.and_eq_true, beq_iff_eq] at hslot
    exact ⟨hmem, hslot⟩
  unfold Sampler.slotTrace
  rw [h.filter_trace]
  constructor
  · intro htimed w hw
    refine (Sampler.windows_metered (fun e he => ?_) w hw).take_initial
    obtain ⟨hin, hsampled, hslot⟩ := hmem he
    have htime := htimed e hin hsampled hslot
    have heffective : e.effectiveTime = e.time := by
      refine if_neg fun hzero => ?_
      have hpos := htime.1
      rw [hzero] at hpos
      exact absurd hpos (by decide)
    rw [heffective]
    exact htime.now_eq (newSamplingHandler_tick initial thereafter tick)
  · intro huntimed
    have hempty : h.Metered [] := rfl
    refine untimed_metered (Int.le_refl 0) rfl hempty fun e he => ?_
    obtain ⟨hin, hsampled, hslot⟩ := hmem he
    exact huntimed e hin hsampled hslot

theorem sampling_renews_nextTick :
    (windows 10 ((newSamplingHandler 1 3 10).slotTrace LogEntry.effectiveTime
        ([1, 2, 3, 11].map fun t => ⟨0, [], t, false, t⟩) 933)).length = 2 ∧
    ∀ w ∈ windows 10 ((newSamplingHandler 1 3 10).slotTrace LogEntry.effectiveTime
        ([1, 2, 3, 11].map fun t => ⟨0, [], t, false, t⟩) 933), ∀ x ∈ w.take 1, x.2 = true :=
  ⟨by decide,
    (sampling_renews 1 3 10 ([1, 2, 3, 11].map fun t => ⟨0, [], t, false, t⟩) 933).1 (by decide)⟩

/-- Two records without a time, two ticks apart: the second is a window of its own, and it is
dropped. -/
theorem untimed_throttled :
    windows 10 ((newSamplingHandler 1 3 10).slotTrace LogEntry.effectiveTime
        ([5, 25].map fun t => ⟨0, [], zeroTime, false, t⟩) 933) =
      [[(5, true)], [(25, false)]] := by
  decide

end GolangBasics.Httpx
