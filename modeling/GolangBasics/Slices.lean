import Mathlib.Data.Nat.Basic
import Mathlib.Logic.Function.Basic
import Mathlib.Order.Basic
import Mathlib.Tactic.SplitIfs

/-! Go slices: windows into the arrays of a memory. Two slices may share an array, and a write
through one is then seen through the other; `append` writes in place while there is room and
moves to a new array otherwise. What is known of a piece of code is which arrays it leaves
alone. -/
namespace GolangBasics.Slices
open List

structure Slice where
  array : Nat
  start : Nat
  len : Nat
  cap : Nat

def Slice.nil : Slice := ⟨0, 0, 0, 0⟩

/-- The arrays below `next` are in use. -/
structure Memory (α : Type) where
  cells : Nat → List α
  next : Nat

variable {α : Type}

def overwrite (cells : List α) (i : Nat) (xs : List α) : List α :=
  cells.take i ++ xs ++ cells.drop (i + xs.length)

namespace Memory

def read (m : Memory α) (s : Slice) : List α := ((m.cells s.array).drop s.start).take s.len

def write (m : Memory α) (s : Slice) (i : Nat) (xs : List α) : Memory α :=
  { m with cells := Function.update m.cells s.array
                      (overwrite (m.cells s.array) (s.start + i) xs) }

def alloc (m : Memory α) (len : Nat) (cells : List α) : Slice × Memory α :=
  (⟨m.next, 0, len, cells.length⟩, ⟨Function.update m.cells m.next cells, m.next + 1⟩)

/-- `append(s, xs...)`. `spare` are the cells that a new array for so many elements has in
addition; how many is up to the runtime. -/
def append (spare : Nat → List α) (m : Memory α) (s : Slice) (xs : List α) : Slice × Memory α :=
  if s.len + xs.length ≤ s.cap then
    ({ s with len := s.len + xs.length }, m.write s s.len xs)
  else m.alloc (s.len + xs.length) (m.read s ++ xs ++ spare (s.len + xs.length))

/-- The slice lies inside an array in use. -/
structure Valid (m : Memory α) (s : Slice) : Prop where
  len : s.len ≤ s.cap
  inside : 0 < s.cap → s.array < m.next ∧ s.start + s.cap ≤ (m.cells s.array).length

/-- Since `m` only arrays from `lo` on have been written. -/
structure Extends (lo : Nat) (m m' : Memory α) : Prop where
  cells : ∀ a < lo, m'.cells a = m.cells a
  next : m.next ≤ m'.next

end Memory

/-- Writes through the slice touch no array below `lo`. -/
def Slice.Above (lo : Nat) (s : Slice) : Prop := 0 < s.cap → lo ≤ s.array

open Memory

variable {m m' m'' : Memory α} {s : Slice} {lo : Nat}

theorem Memory.Extends.refl (lo : Nat) (m : Memory α) : m.Extends lo m := ⟨fun _ _ => rfl, le_rfl⟩

theorem Memory.Extends.trans (h : m.Extends lo m') (h' : m'.Extends lo m'') :
    m.Extends lo m'' :=
  ⟨fun a ha => (h'.cells a ha).trans (h.cells a ha), h.next.trans h'.next⟩

theorem Memory.Extends.mono {hi : Nat} (h : m.Extends hi m') (hle : lo ≤ hi) : m.Extends lo m' :=
  ⟨fun a ha => h.cells a (ha.trans_le hle), h.next⟩

theorem Memory.Valid.len_eq_zero (hs : m.Valid s) (hcap : ¬ 0 < s.cap) : s.len = 0 := by
  have hlen := hs.len
  omega

theorem Memory.Extends.read (h : m.Extends m.next m') (hs : m.Valid s) :
    m'.read s = m.read s := by
  unfold Memory.read
  by_cases hcap : 0 < s.cap
  · rw [h.cells _ (hs.inside hcap).1]
  · rw [hs.len_eq_zero hcap, take_zero, take_zero]

theorem Memory.Extends.valid (h : m.Extends m.next m') (hs : m.Valid s) : m'.Valid s := by
  refine ⟨hs.len, fun hcap => ?_⟩
  obtain ⟨hused, hinside⟩ := hs.inside hcap
  rw [h.cells _ hused]
  exact ⟨hused.trans_le h.next, hinside⟩

theorem valid_nil (m : Memory α) : m.Valid .nil := ⟨le_rfl, fun h => absurd h (lt_irrefl 0)⟩

theorem read_nil (m : Memory α) : m.read .nil = [] := take_zero

theorem length_read (hs : m.Valid s) : (m.read s).length = s.len := by
  unfold Memory.read
  rw [length_take, length_drop]
  by_cases hcap : 0 < s.cap
  · have hlen := hs.len
    have hinside := (hs.inside hcap).2
    omega
  · rw [hs.len_eq_zero hcap, Nat.zero_min]

theorem length_overwrite {cells xs : List α} {i : Nat} (h : i + xs.length ≤ cells.length) :
    (overwrite cells i xs).length = cells.length := by
  unfold overwrite
  simp only [length_append, length_take, length_drop]
  omega

theorem drop_overwrite {cells : List α} {k : Nat} (h : k ≤ cells.length) (i : Nat) (xs : List α) :
    (overwrite cells (k + i) xs).drop k = overwrite (cells.drop k) i xs := by
  unfold overwrite
  have hfront : k ≤ (cells.take (k + i) ++ xs).length := by
    rw [length_append, length_take]
    omega
  have htake : k ≤ (cells.take (k + i)).length := by
    rw [length_take]
    omega
  rw [drop_append_of_le_length hfront, drop_append_of_le_length htake, drop_take,
    drop_drop, Nat.add_sub_cancel_left, Nat.add_assoc]

theorem overwrite_singleton {cells : List α} {i : Nat} (h : i < cells.length) (x : α) :
    overwrite cells i [x] = cells.set i x := by
  unfold overwrite
  rw [set_eq_take_append_cons_drop, if_pos h, append_assoc]
  rfl

theorem extends_write (habove : s.Above lo) (hcap : 0 < s.cap) (i : Nat) (xs : List α) :
    m.Extends lo (m.write s i xs) := by
  refine ⟨fun a ha => ?_, le_rfl⟩
  have hne : a ≠ s.array := by
    have hle := habove hcap
    omega
  exact Function.update_of_ne hne _ _

theorem valid_write (hs : m.Valid s) {i : Nat} {xs : List α} (h : i + xs.length ≤ s.cap) :
    (m.write s i xs).Valid s := by
  refine ⟨hs.len, fun hcap => ?_⟩
  obtain ⟨hused, hinside⟩ := hs.inside hcap
  have hcells : (m.write s i xs).cells s.array =
      overwrite (m.cells s.array) (s.start + i) xs := Function.update_self _ _ _
  rw [hcells, length_overwrite (by omega)]
  exact ⟨hused, hinside⟩

theorem read_set (hs : m.Valid s) {i : Nat} (hi : i < s.len) (x : α) :
    (m.write s i [x]).read s = (m.read s).set i x := by
  have hlen := hs.len
  have hinside := (hs.inside (by omega)).2
  have hcells : (m.write s i [x]).cells s.array =
      overwrite (m.cells s.array) (s.start + i) [x] := Function.update_self _ _ _
  unfold Memory.read
  rw [hcells, drop_overwrite (by omega), overwrite_singleton (by rw [length_drop]; omega),
    take_set]

theorem write_nil (m : Memory α) (s : Slice) (i : Nat) : m.write s i [] = m := by
  unfold Memory.write overwrite
  rw [length_nil, Nat.add_zero, append_nil, take_append_drop,
    Function.update_eq_self]

theorem extends_write_take (habove : s.Above lo) (xs : List α) :
    m.Extends lo (m.write s 0 (xs.take s.cap)) := by
  by_cases hcap : 0 < s.cap
  · exact extends_write habove hcap _ _
  · rw [Nat.eq_zero_of_not_pos hcap, take_zero, write_nil]
    exact .refl lo m

theorem alloc_spec (xs cells : List α) (hlo : lo ≤ m.next) :
    (m.alloc xs.length (xs ++ cells)).2.Valid (m.alloc xs.length (xs ++ cells)).1 ∧
    (m.alloc xs.length (xs ++ cells)).2.read (m.alloc xs.length (xs ++ cells)).1 = xs ∧
    (m.alloc xs.length (xs ++ cells)).1.Above lo ∧
    m.Extends lo (m.alloc xs.length (xs ++ cells)).2 := by
  have hcells : (m.alloc xs.length (xs ++ cells)).2.cells m.next = xs ++ cells :=
    Function.update_self _ _ _
  refine ⟨⟨?_, fun _ => ⟨Nat.lt_succ_self _, ?_⟩⟩, ?_, fun _ => hlo, fun a ha => ?_,
    Nat.le_succ _⟩
  · exact (Nat.le_add_right _ _).trans_eq length_append.symm
  · rw [show (m.alloc xs.length (xs ++ cells)).1.array = m.next from rfl, hcells]
    exact (Nat.zero_add _).le
  · unfold Memory.read
    rw [show (m.alloc xs.length (xs ++ cells)).1.array = m.next from rfl, hcells]
    exact List.take_left' rfl
  · exact Function.update_of_ne (ha.trans_le hlo).ne _ _

variable (spare : Nat → List α)

/-- What `append` makes of a slice: the elements behind one another, in a slice that leaves
alone what the old one did. -/
theorem append_spec (hs : m.Valid s) (xs : List α) (habove : s.Above lo) (hlo : lo ≤ m.next) :
    (m.append spare s xs).2.Valid (m.append spare s xs).1 ∧
    (m.append spare s xs).2.read (m.append spare s xs).1 = m.read s ++ xs ∧
    (m.append spare s xs).1.Above lo ∧ m.Extends lo (m.append spare s xs).2 := by
  have hlength := length_read hs
  unfold Memory.append
  split_ifs with hroom
  · by_cases hcap : 0 < s.cap
    · have hvalid := valid_write hs hroom
      obtain ⟨hused, hinside⟩ := hs.inside hcap
      have hcells : (m.write s s.len xs).cells s.array =
          overwrite (m.cells s.array) (s.start + s.len) xs := Function.update_self _ _ _
      have hlen := hs.len
      refine ⟨⟨hroom, hvalid.inside⟩, ?_, habove, extends_write habove hcap _ _⟩
      unfold Memory.read
      dsimp only
      rw [hcells, drop_overwrite (by omega)]
      unfold overwrite
      refine List.take_left' ?_
      rw [length_append, length_take, length_drop]
      omega
    · have hempty : xs = [] := eq_nil_of_length_eq_zero (by omega)
      subst hempty
      rw [write_nil]
      exact ⟨⟨hroom, hs.inside⟩, (append_nil _).symm, habove, .refl lo m⟩
  · have hxs : s.len + xs.length = (m.read s ++ xs).length := by
      rw [length_append, hlength]
    rw [hxs]
    exact alloc_spec _ _ hlo

end GolangBasics.Slices
