import Mathlib.Data.List.Basic

/-! A cache entry over a source that changes. Readers fill the entry when it is absent, and
a writer replaces it by a tombstone after its change. The entry stands next to a record of
the fills still to come and of the changes made, and a relation says which changes are newer
than a value. -/
namespace GolangBasics.Conc
open List Option

/-- What the cache holds at one key. `junk` does not decode to a value. -/
inductive Slot (V : Type) where
  | empty
  | value (v : V)
  | junk
  | tombstone (expires : Nat)

/-- Writes a value only where nothing is, and tells whether it did. -/
def Slot.setNX {V : Type} (v : V) : Slot V → Slot V × Bool
  | empty => (value v, true)
  | slot => (slot, false)

/-- A value that `proc` has read and has still to write. Once `sent`, the process has given
up on the command, which may yet arrive. -/
structure Fill (P V : Type) where
  proc : P
  value : V
  sent : Bool

/-- A change of the source, and when its tombstone runs out if that has been written. -/
structure Writer (P C : Type) where
  proc : P
  change : C
  expires : Option Nat

structure Cached (P V C : Type) where
  clock : Nat := 0
  slot : Slot V := .empty
  fills : List (Fill P V) := []
  writers : List (Writer P C) := []

namespace Cached

variable {P V C : Type}

def read (s : Cached P V C) (p : P) (v : V) : Cached P V C :=
  { s with fills := ⟨p, v, false⟩ :: s.fills }

def forget [DecidableEq P] (s : Cached P V C) (p : P) (sent : Bool) : Cached P V C :=
  { s with fills := s.fills.filter fun f => f.proc ≠ p || f.sent ≠ sent }

def fill [DecidableEq P] (s : Cached P V C) (p : P) (sent : Bool) (v : V) : Cached P V C :=
  { s.forget p sent with slot := (s.slot.setNX v).1 }

def send [DecidableEq P] (s : Cached P V C) (p : P) : Cached P V C :=
  { s with fills := s.fills.map fun f => if f.proc = p then { f with sent := true } else f }

def commit (s : Cached P V C) (p : P) (c : C) : Cached P V C :=
  { s with writers := ⟨p, c, none⟩ :: s.writers }

def tombstone [DecidableEq P] (s : Cached P V C) (ttl : Nat) (p : P) : Cached P V C :=
  { s with
    slot := .tombstone (s.clock + ttl)
    writers := s.writers.map fun w =>
      if w.proc = p then { w with expires := some (s.clock + ttl) } else w }

/-- An entry may go at any time, a tombstone when its time has come. -/
def expire (s : Cached P V C) : Option (Cached P V C) :=
  match s.slot with
  | .tombstone e => if e ≤ s.clock then some { s with slot := .empty } else none
  | _ => some { s with slot := .empty }

def spoil (s : Cached P V C) : Option (Cached P V C) :=
  match s.slot with
  | .tombstone _ => none
  | _ => some { s with slot := .junk }

/-- No tombstone runs out while a fill is to come whose value its change is newer than. -/
def timely (newer : C → V → Bool) (s : Cached P V C) (now : Nat) : Bool :=
  s.fills.all fun f => s.writers.all fun w =>
    !newer w.change f.value || w.expires.all (now < ·)

def tick (newer : C → V → Bool) (s : Cached P V C) (d : Nat) : Option (Cached P V C) :=
  if s.timely newer (s.clock + d) then some { s with clock := s.clock + d } else none

theorem expire_ledger {s s' : Cached P V C} (h : s.expire = some s') :
    s'.fills = s.fills ∧ s'.writers = s.writers := by
  unfold expire at h
  split at h
  · split at h
    · obtain rfl := some.inj h
      exact ⟨rfl, rfl⟩
    · cases h
  · obtain rfl := some.inj h
    exact ⟨rfl, rfl⟩

theorem spoil_ledger {s s' : Cached P V C} (h : s.spoil = some s') :
    s'.fills = s.fills ∧ s'.writers = s.writers := by
  unfold spoil at h
  split at h
  · cases h
  · obtain rfl := some.inj h
    exact ⟨rfl, rfl⟩

theorem tick_ledger {newer : C → V → Bool} {d : Nat} {s s' : Cached P V C}
    (h : s.tick newer d = some s') : s'.fills = s.fills ∧ s'.writers = s.writers := by
  unfold tick at h
  split at h
  · obtain rfl := some.inj h
    exact ⟨rfl, rfl⟩
  · cases h

/-- How the entry stands to the source, whose values are those of `current`. -/
structure Sound (newer : C → V → Bool) (ttl : Nat) (current : V → Prop) (s : Cached P V C) :
    Prop where
  latest : ∀ v, current v → ∀ w ∈ s.writers, newer w.change v = false
  seen : ∀ v, s.slot = .value v ∨ (∃ f ∈ s.fills, f.value = v) →
    current v ∨ ∃ w ∈ s.writers, newer w.change v = true
  held : ∀ w ∈ s.writers, ∀ e, w.expires = some e → s.clock < e →
    ∃ e', s.slot = .tombstone e' ∧ e ≤ e'
  awaited : ∀ f ∈ s.fills, ∀ w ∈ s.writers, newer w.change f.value = true →
    ∀ e, w.expires = some e → s.clock < e
  owed : ∀ v, s.slot = .value v → ∀ w ∈ s.writers, newer w.change v = true → w.expires = none
  bounded : ∀ w ∈ s.writers, ∀ e, w.expires = some e → e ≤ s.clock + ttl

namespace Sound

variable {newer : C → V → Bool} {ttl : Nat} {current current' : V → Prop} {s s' : Cached P V C}
  {p : P} {v : V} {c : C}

/-- A value in the cache is current, or a writer of something newer has its tombstone still to
write. -/
theorem current_or_owed (h : s.Sound newer ttl current) (hv : s.slot = .value v) :
    current v ∨ ∃ w ∈ s.writers, newer w.change v = true ∧ w.expires = none := by
  rcases h.seen v (.inl hv) with hcur | ⟨w, hw, hnewer⟩
  · exact .inl hcur
  · exact .inr ⟨w, hw, hnewer, h.owed v hv w hw hnewer⟩

/-- Against a cached value, no change is newer whose tombstone has been written. -/
theorem not_newer (h : s.Sound newer ttl current) (hv : s.slot = .value v) {w : Writer P C}
    (hw : w ∈ s.writers) (hdone : w.expires ≠ none) : newer w.change v = false := by
  by_contra hnewer
  exact hdone (h.owed v hv w hw (by simpa using hnewer))

theorem init (hcur : ∀ v, ¬current v) : ({} : Cached P V C).Sound newer ttl current where
  latest v hv := absurd hv (hcur v)
  seen v hv := by simp at hv
  held w hw := by simp at hw
  awaited f hf := by simp at hf
  owed v hv := by simp at hv
  bounded w hw := by simp at hw

theorem born (h : s.Sound newer ttl current) (hcur : ∀ v, ¬current v) (hno : s.writers = []) :
    s.Sound newer ttl current' where
  latest v _ w hw := by simp [hno] at hw
  seen v hv := by
    rcases h.seen v hv with hc | ⟨w, hw, -⟩
    · exact absurd hc (hcur v)
    · simp [hno] at hw
  held := h.held
  awaited := h.awaited
  owed := h.owed
  bounded := h.bounded

theorem read (h : s.Sound newer ttl current) (hv : current v) :
    (s.read p v).Sound newer ttl current where
  latest := h.latest
  seen u hu := by
    rcases hu with hslot | ⟨f, hf, rfl⟩
    · exact h.seen u (.inl hslot)
    · rcases mem_cons.mp hf with rfl | hf
      · exact .inl hv
      · exact h.seen f.value (.inr ⟨f, hf, rfl⟩)
  held := h.held
  awaited f hf w hw hnewer := by
    rcases mem_cons.mp hf with rfl | hf
    · have hold := h.latest v hv w hw
      simp [hold] at hnewer
    · exact h.awaited f hf w hw hnewer
  owed := h.owed
  bounded := h.bounded

theorem of_fills (h : s.Sound newer ttl current) {fills : List (Fill P V)}
    (hsub : ∀ f ∈ fills, ∃ f' ∈ s.fills, f'.value = f.value) :
    { s with fills := fills }.Sound newer ttl current where
  latest := h.latest
  seen u hu := by
    rcases hu with hslot | ⟨f, hf, rfl⟩
    · exact h.seen u (.inl hslot)
    · exact h.seen f.value (.inr (hsub f hf))
  held := h.held
  awaited f hf w hw hnewer := by
    obtain ⟨f', hf', hvalue⟩ := hsub f hf
    exact h.awaited f' hf' w hw (by rw [hvalue]; exact hnewer)
  owed := h.owed
  bounded := h.bounded

theorem commit (h : s.Sound newer ttl current) (hnew : ∀ v, current v → newer c v = true)
    (hcur : ∀ v, current' v → newer c v = false ∧ ∀ w ∈ s.writers, newer w.change v = false) :
    (s.commit p c).Sound newer ttl current' where
  latest v hv w hw := by
    rcases mem_cons.mp hw with rfl | hw
    · exact (hcur v hv).1
    · exact (hcur v hv).2 w hw
  seen v hv := by
    rcases h.seen v hv with hold | ⟨w, hw, hnewer⟩
    · exact .inr ⟨⟨p, c, none⟩, mem_cons_self, hnew v hold⟩
    · exact .inr ⟨w, mem_cons_of_mem _ hw, hnewer⟩
  held w hw e he := by
    rcases mem_cons.mp hw with rfl | hw
    · cases he
    · exact h.held w hw e he
  awaited f hf w hw hnewer e he := by
    rcases mem_cons.mp hw with rfl | hw
    · cases he
    · exact h.awaited f hf w hw hnewer e he
  owed v hv w hw hnewer := by
    rcases mem_cons.mp hw with rfl | hw
    · rfl
    · exact h.owed v hv w hw hnewer
  bounded w hw e he := by
    rcases mem_cons.mp hw with rfl | hw
    · cases he
    · exact h.bounded w hw e he

/-- The slot is emptied or spoiled where no tombstone is needed. -/
theorem of_slot (h : s.Sound newer ttl current) {slot : Slot V} (hslot : ∀ v, slot ≠ .value v)
    (hfree : ∀ e, s.slot = .tombstone e → e ≤ s.clock) :
    { s with slot := slot }.Sound newer ttl current where
  latest := h.latest
  seen v hv := by
    rcases hv with hv | hv
    · exact absurd hv (hslot v)
    · exact h.seen v (.inr hv)
  held w hw e he hlt := by
    obtain ⟨e', he', hle⟩ := h.held w hw e he hlt
    have hpast := hfree e' he'
    have hlt : s.clock < e := hlt
    omega
  awaited := h.awaited
  owed v hv := absurd hv (hslot v)
  bounded := h.bounded

theorem expire (h : s.Sound newer ttl current) (hs : s.expire = some s') :
    s'.Sound newer ttl current := by
  unfold Cached.expire at hs
  split at hs
  · rename_i e hslot
    split at hs
    · rename_i hpast
      obtain rfl := some.inj hs
      refine h.of_slot (by simp) fun e' he' => ?_
      rw [hslot] at he'
      cases he'
      exact hpast
    · cases hs
  · rename_i hslot
    obtain rfl := some.inj hs
    exact h.of_slot (by simp) fun e he => absurd he (hslot e)

theorem spoil (h : s.Sound newer ttl current) (hs : s.spoil = some s') :
    s'.Sound newer ttl current := by
  unfold Cached.spoil at hs
  split at hs
  · cases hs
  · rename_i hslot
    obtain rfl := some.inj hs
    exact h.of_slot (by simp) fun e he => absurd he (hslot e)

theorem tick (h : s.Sound newer ttl current) {d : Nat} (hs : s.tick newer d = some s') :
    s'.Sound newer ttl current := by
  unfold Cached.tick at hs
  split at hs
  · rename_i htimely
    obtain rfl := some.inj hs
    refine ⟨h.latest, h.seen, fun w hw e he hlt => ?_, fun f hf w hw hnewer e he => ?_, h.owed,
      fun w hw e he => ?_⟩
    · have hlt : s.clock + d < e := hlt
      exact h.held w hw e he (by omega)
    · have hall := List.all_eq_true.mp (List.all_eq_true.mp htimely f hf) w hw
      simpa [hnewer, he] using hall
    · have hle := h.bounded w hw e he
      show e ≤ s.clock + d + ttl
      omega
  · cases hs

variable [DecidableEq P]

theorem forget (h : s.Sound newer ttl current) {sent : Bool} :
    (s.forget p sent).Sound newer ttl current :=
  h.of_fills fun f hf => ⟨f, (mem_filter.mp hf).1, rfl⟩

theorem send (h : s.Sound newer ttl current) : (s.send p).Sound newer ttl current := by
  refine h.of_fills fun f hf => ?_
  obtain ⟨f', hf', rfl⟩ := List.mem_map.mp hf
  exact ⟨f', hf', by split <;> rfl⟩

/-- A fill that finds the key absent writes nothing old: the tombstone of a newer change would
still be there. -/
theorem fill (h : s.Sound newer ttl current) {f : Fill P V} (hf : f ∈ s.fills) {sent : Bool} :
    (s.fill p sent f.value).Sound newer ttl current := by
  have hforget : (s.forget p sent).Sound newer ttl current := h.forget
  unfold Cached.fill
  cases hslot : s.slot with
  | empty =>
    refine ⟨h.latest, fun u hu => ?_, fun w hw e he hlt => ?_, hforget.awaited,
      fun u hu w hw hnewer => ?_, h.bounded⟩
    · rcases hu with hu | hu
      · obtain rfl : f.value = u := by simpa [Slot.setNX] using hu
        exact h.seen f.value (.inr ⟨f, hf, rfl⟩)
      · exact hforget.seen u (.inr hu)
    · obtain ⟨e', he', -⟩ := h.held w hw e he hlt
      rw [hslot] at he'
      cases he'
    · obtain rfl : f.value = u := by simpa [Slot.setNX] using hu
      by_contra hdone
      obtain ⟨e, he⟩ := Option.ne_none_iff_exists'.mp hdone
      obtain ⟨e', he', -⟩ := h.held w hw e he (h.awaited f hf w hw hnewer e he)
      rw [hslot] at he'
      cases he'
  | value u =>
    simp only [Slot.setNX, ← hslot]
    exact hforget
  | junk =>
    simp only [Slot.setNX, ← hslot]
    exact hforget
  | tombstone e =>
    simp only [Slot.setNX, ← hslot]
    exact hforget

/-- A writer after a tombstone is one from before, with its own or the new time. -/
theorem mem_tombstone {w : Writer P C} (hw : w ∈ (s.tombstone ttl p).writers) :
    ∃ w₀ ∈ s.writers, w₀.change = w.change ∧ w₀.proc = w.proc ∧
      (w.expires = w₀.expires ∧ w.proc ≠ p ∨ w.expires = some (s.clock + ttl) ∧ w.proc = p) := by
  obtain ⟨w₀, hw₀, rfl⟩ := List.mem_map.mp hw
  refine ⟨w₀, hw₀, ?_⟩
  by_cases hp : w₀.proc = p <;> simp [hp]

/-- With one length of life for all, the new tombstone outlives those it replaces. -/
theorem tombstone (h : s.Sound newer ttl current) (hpos : 0 < ttl) :
    (s.tombstone ttl p).Sound newer ttl current where
  latest v hv w hw := by
    obtain ⟨w₀, hw₀, hchange, -⟩ := mem_tombstone hw
    rw [← hchange]
    exact h.latest v hv w₀ hw₀
  seen v hv := by
    rcases hv with hv | hv
    · cases hv
    · rcases h.seen v (.inr hv) with hcur | ⟨w, hw, hnewer⟩
      · exact .inl hcur
      · refine .inr ⟨_, List.mem_map_of_mem hw, ?_⟩
        split <;> exact hnewer
  held w hw e he _ := by
    refine ⟨s.clock + ttl, rfl, ?_⟩
    obtain ⟨w₀, hw₀, -, -, ⟨hexp, -⟩ | ⟨hexp, -⟩⟩ := mem_tombstone hw
    · exact h.bounded w₀ hw₀ e (hexp ▸ he)
    · simp_all
  awaited f hf w hw hnewer e he := by
    obtain ⟨w₀, hw₀, hchange, -, ⟨hexp, -⟩ | ⟨hexp, -⟩⟩ := mem_tombstone hw
    · exact h.awaited f hf w₀ hw₀ (by rw [hchange]; exact hnewer) e (hexp ▸ he)
    · obtain rfl : s.clock + ttl = e := some.inj (hexp.symm.trans he)
      show s.clock < s.clock + ttl
      omega
  owed v hv := by cases hv
  bounded w hw e he := by
    obtain ⟨w₀, hw₀, -, -, ⟨hexp, -⟩ | ⟨hexp, -⟩⟩ := mem_tombstone hw
    · exact h.bounded w₀ hw₀ e (hexp ▸ he)
    · obtain rfl : s.clock + ttl = e := some.inj (hexp.symm.trans he)
      exact Nat.le_refl _

end Sound

end Cached

end GolangBasics.Conc
