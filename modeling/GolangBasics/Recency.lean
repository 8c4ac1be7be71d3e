import Mathlib.Data.Finset.Card
import Mathlib.Data.List.Nodup

/-! The order in which keys were last used. A history of uses is a list, newest first; what a
bounded recency list remembers of it are its first distinct keys. -/
namespace GolangBasics.Recency
open List

variable {α : Type} [DecidableEq α]

def recent : List α → List α
  | [] => []
  | a :: history => a :: (recent history).erase a

def touch (n : Nat) (keys : List α) (a : α) : List α :=
  if a ∈ keys then a :: keys.erase a else (a :: keys).take n

theorem touch_of_not_mem {a : α} {keys : List α} (h : a ∉ keys) (n : Nat) :
    touch n keys a = (a :: keys).take n := if_neg h

theorem touch_middle {a : α} {newer : List α} (h : a ∉ newer) (older : List α) (n : Nat) :
    touch n (newer ++ a :: older) a = a :: (newer ++ older) := by
  unfold touch
  rw [if_pos (by simp), erase_append_right _ h, erase_cons_head]

theorem mem_of_mem_touch {a b : α} {keys : List α} {n : Nat} (h : b ∈ touch n keys a) :
    b = a ∨ b ∈ keys := by
  unfold touch at h
  split_ifs at h
  · exact (mem_cons.mp h).imp_right mem_of_mem_erase
  · exact mem_cons.mp (mem_of_mem_take h)

theorem mem_recent {a : α} {history : List α} : a ∈ recent history ↔ a ∈ history := by
  induction history with
  | nil => rfl
  | cons b history ih =>
    by_cases hab : a = b
    · simp [recent, hab]
    · simp only [recent, mem_cons, hab, false_or, mem_erase_of_ne hab, ih]

theorem nodup_recent (history : List α) : (recent history).Nodup := by
  induction history with
  | nil => exact nodup_nil
  | cons a history ih => exact nodup_cons.mpr ⟨ih.not_mem_erase, ih.erase a⟩

theorem length_recent (history : List α) : (recent history).length = history.toFinset.card := by
  rw [← toFinset_card_of_nodup (nodup_recent history)]
  congr 1
  ext a
  simp [mem_recent]

theorem recent_append {a : α} {since : List α} (h : a ∉ since) (before : List α) :
    ∃ rest, recent (since ++ a :: before) = recent since ++ a :: rest := by
  induction since with
  | nil => exact ⟨(recent before).erase a, rfl⟩
  | cons b since ih =>
    have hba : a ≠ b := fun hab => h (hab ▸ mem_cons_self)
    obtain ⟨rest, hrest⟩ := ih fun hin => h (mem_cons_of_mem b hin)
    simp only [cons_append, recent, hrest]
    by_cases hb : b ∈ recent since
    · exact ⟨rest, by rw [erase_append_left _ hb]⟩
    · refine ⟨rest.erase b, ?_⟩
      rw [erase_append_right _ hb, erase_of_not_mem hb,
        erase_cons_tail (by simpa using hba)]

/-- A key is among the `n` most recent ones exactly if fewer than `n` others were used since. -/
theorem mem_take_recent {a : α} {since : List α} (h : a ∉ since) (before : List α) (n : Nat) :
    a ∈ (recent (since ++ a :: before)).take n ↔ since.toFinset.card < n := by
  obtain ⟨rest, hrest⟩ := recent_append h before
  have hnot : a ∉ (recent since).take n := fun hin => h (mem_recent.mp (mem_of_mem_take hin))
  rw [hrest, ← length_recent, take_append, mem_append]
  constructor
  · intro hin
    rcases hin with hin | hin
    · exact absurd hin hnot
    · by_contra hle
      simp [Nat.sub_eq_zero_of_le (not_lt.mp hle)] at hin
  · intro hlt
    right
    obtain ⟨m, hm⟩ := Nat.exists_eq_succ_of_ne_zero (Nat.sub_pos_of_lt hlt).ne'
    simp [hm]

theorem take_recent_cons (n : Nat) (a : α) (history : List α) :
    (recent (a :: history)).take n = touch n ((recent history).take n) a := by
  unfold touch
  simp only [recent]
  generalize recent history = keys
  cases n with
  | zero => simp
  | succ n =>
    have herase : (keys.erase a).length ≤ keys.length := length_erase_le
    rcases Nat.lt_or_ge keys.length (n + 1) with hshort | hlong
    · rw [take_of_length_le hshort.le, take_succ_cons, take_of_length_le (by omega)]
      split_ifs with hin
      · rfl
      · rw [erase_of_not_mem hin, take_succ_cons, take_of_length_le (by omega)]
    · have hlength : (keys.take (n + 1)).length = n + 1 := length_take_of_le hlong
      have hkeys := take_append_drop (n + 1) keys
      rw [take_succ_cons]
      split_ifs with hin
      · have hfront : ((keys.take (n + 1)).erase a).length = n := by
          rw [length_erase_of_mem hin, hlength]
          rfl
        nth_rewrite 1 [← hkeys]
        rw [erase_append_left _ hin, take_append_of_le_length hfront.ge,
          take_of_length_le hfront.le]
      · nth_rewrite 1 [← hkeys]
        rw [erase_append_right _ hin, take_append_of_le_length (by omega),
          take_succ_cons]

end GolangBasics.Recency
