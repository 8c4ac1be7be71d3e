import GolangBasics.Netip.Blocks

/-! What an address is printed as is read back as the same address. -/
namespace GolangBasics.Netip
open List Option
open Json (unhex isDigit)
open Strings

variable {d : Nat}

section digits
variable {base : Nat}

theorem ofDigits_concat (ds : List Nat) (d : Nat) :
    ofDigits base (ds ++ [d]) = ofDigits base ds * base + d := by
  unfold ofDigits
  rw [foldl_append]
  rfl

theorem length_toDigits (base k n : Nat) : (toDigits base k n).length = k := by
  induction k generalizing n with
  | zero => rfl
  | succ k ih => rw [toDigits, length_append, ih, length_singleton]

theorem ofDigits_toDigits {k n : Nat} (h : n < base ^ k) :
    ofDigits base (toDigits base k n) = n := by
  induction k generalizing n with
  | zero =>
    have hzero : n = 0 := Nat.lt_one_iff.mp h
    subst hzero
    rfl
  | succ k ih =>
    have hhead : n / base < base ^ k := Nat.div_lt_of_lt_mul (Nat.pow_succ' ▸ h)
    rw [toDigits, ofDigits_concat, ih hhead]
    exact Nat.div_add_mod' n base

theorem lt_of_mem_toDigits (hbase : 0 < base) {k n : Nat} (h : d ∈ toDigits base k n) :
    d < base := by
  induction k generalizing n with
  | zero => cases h
  | succ k ih =>
    rw [toDigits, mem_append, mem_singleton] at h
    cases h with
    | inl hhead => exact ih hhead
    | inr hlast => exact hlast ▸ Nat.mod_lt n hbase

end digits

/-! ### IPv4 -/

theorem isDigit_lowerHex (h : d < 10) : isDigit (lowerHex d) = true := by
  have hall : ∀ d < 10, isDigit (lowerHex d) = true := by decide
  exact hall d h

theorem toNat_lowerHex (h : d < 10) : (lowerHex d).toNat - 0x30 = d := by
  have hall : ∀ d < 10, (lowerHex d).toNat - 0x30 = d := by decide
  exact hall d h

variable {done : List Nat} {rest : Bytes}

theorem ipv4Fields_digit {val len : Nat} (hd : d < 10) (hlead : len = 1 → val ≠ 0)
    (hsmall : val * 10 + d ≤ 255) : ipv4Fields done val len (lowerHex d :: rest) =
      ipv4Fields done (val * 10 + d) (len + 1) rest := by
  have hlead : ¬ (len = 1 ∧ val = 0) := fun h => hlead h.1 h.2
  rw [ipv4Fields, if_pos (isDigit_lowerHex hd), if_neg hlead]
  dsimp only
  rw [toNat_lowerHex hd, if_neg (by omega)]

theorem ipv4Fields_octet {x : Nat} (hx : x < 256) (done : List Nat) (rest : Bytes) :
    ∃ len, ipv4Fields done 0 0 (appendDecimal x ++ rest) = ipv4Fields done x (len + 1) rest := by
  unfold appendDecimal
  by_cases hhundred : 100 ≤ x
  · refine ⟨2, ?_⟩
    rw [if_pos hhundred, if_pos (by omega)]
    simp only [cons_append, nil_append]
    rw [ipv4Fields_digit (by omega) (by omega) (by omega),
      ipv4Fields_digit (by omega) (by omega) (by omega),
      ipv4Fields_digit (by omega) (by omega) (by omega)]
    congr 1
    omega
  · by_cases hten : 10 ≤ x
    · refine ⟨1, ?_⟩
      rw [if_neg hhundred, if_pos hten]
      simp only [cons_append, nil_append]
      rw [ipv4Fields_digit (by omega) (by omega) (by omega),
        ipv4Fields_digit (by omega) (by omega) (by omega)]
      congr 1
      omega
    · refine ⟨0, ?_⟩
      rw [if_neg hhundred, if_neg hten]
      simp only [cons_append, nil_append]
      rw [ipv4Fields_digit (by omega) (by omega) (by omega)]
      congr 1
      omega

theorem ipv4Fields_dot {val len : Nat} (hrest : rest ≠ []) (hdone : done.length ≠ 3) :
    ipv4Fields done val (len + 1) (0x2E :: rest) = ipv4Fields (done ++ [val]) 0 0 rest := by
  have hgoes : ¬ (len + 1 = 0 ∨ rest = []) := fun h => h.elim nofun hrest
  rw [ipv4Fields, if_neg (by decide), if_pos rfl, if_neg hgoes, if_neg hdone]

theorem appendDecimal_ne_nil (x : Nat) : appendDecimal x ≠ [] := by
  unfold appendDecimal
  exact append_ne_nil_of_right_ne_nil _ (cons_ne_nil _ _)

theorem ipv4Fields_joined {octets : List Nat} (hne : octets ≠ []) (hx : ∀ x ∈ octets, x < 256)
    (hlen : done.length + octets.length = 4) :
    ipv4Fields done 0 0 (joined 0x2E (octets.map appendDecimal)) = some (done ++ octets) := by
  induction octets generalizing done with
  | nil => exact absurd rfl hne
  | cons x octets ih =>
    have hx0 := hx x mem_cons_self
    rw [length_cons] at hlen
    by_cases hlast : octets = []
    · subst hlast
      obtain ⟨len, hread⟩ := ipv4Fields_octet hx0 done []
      rw [append_nil] at hread
      rw [map_singleton, joined_singleton, hread, ipv4Fields, if_neg (by simp at hlen; omega)]
    · have hmap : octets.map appendDecimal ≠ [] := fun h => hlast (map_eq_nil_iff.mp h)
      have hrest : joined 0x2E (octets.map appendDecimal) ≠ [] := by
        refine joined_ne_nil hmap fun t ht => ?_
        obtain ⟨y, -, rfl⟩ := List.mem_map.mp ht
        exact appendDecimal_ne_nil y
      have hpos := length_pos_iff.mpr hlast
      obtain ⟨len, hread⟩ := ipv4Fields_octet hx0 done
        (0x2E :: joined 0x2E (octets.map appendDecimal))
      rw [map_cons, joined_cons _ hmap, hread, ipv4Fields_dot hrest (by omega),
        ih hlast (fun y hy => hx y (mem_cons_of_mem x hy))
          (by rw [length_append, length_singleton]; omega),
        append_assoc]
      rfl

theorem ipv4Fields_string4 (bits : BitVec 32) :
    ipv4Fields [] 0 0 (string4 bits) = some (toDigits 256 4 bits.toNat) := by
  have hlen := length_toDigits 256 4 bits.toNat
  refine ipv4Fields_joined (ne_nil_of_length_pos (by omega)) (fun x hx => ?_)
    (by simpa using hlen)
  exact lt_of_mem_toDigits (by decide) hx

variable {b : UInt8}

/-- A byte that is neither a digit nor a dot is in no IPv4 address. -/
theorem ipv4Fields_none (hdigit : isDigit b = false) (hdot : b ≠ 0x2E) {s : Bytes} (h : b ∈ s)
    (val len : Nat) : ipv4Fields done val len s = none := by
  induction s generalizing done val len with
  | nil => cases h
  | cons c s ih =>
    rw [ipv4Fields]
    by_cases hb : b = c
    · subst hb
      rw [if_neg (by rw [hdigit]; decide), if_neg hdot]
    · have hs : b ∈ s := (mem_cons.mp h).resolve_left hb
      simp only [ih hs, ite_self]

/-! ### IPv6 -/

theorem unhex_lowerHex (h : d < 16) : unhex (lowerHex d) = some d := by
  have hall : ∀ d < 16, unhex (lowerHex d) = some d := by decide
  exact hall d h

theorem appendHex_spec {x : Nat} (hx : x < 65536) :
    ∃ ds : List Nat, appendHex x = ds.map lowerHex ∧ (∀ d ∈ ds, d < 16) ∧
      ds ≠ [] ∧ ds.length ≤ 4 ∧ ofDigits 16 ds = x := by
  let ds := [x / 0x1000, x / 0x100 % 16, x / 0x10 % 16, x % 16]
  have hlt : ∀ d ∈ ds, d < 16 := by
    simp only [ds, mem_cons, not_mem_nil, or_false]
    omega
  -- all but the leading zeros are printed
  suffices h : ∃ k < 4, appendHex x = (ds.drop k).map lowerHex ∧ ofDigits 16 (ds.drop k) = x by
    obtain ⟨k, hk, htext, hvalue⟩ := h
    have hlen : (ds.drop k).length = 4 - k := length_drop
    exact ⟨ds.drop k, htext, fun d hd => hlt d (mem_of_mem_drop hd),
      ne_nil_of_length_pos (by omega), by omega, hvalue⟩
  unfold appendHex
  by_cases hfour : 0x1000 ≤ x
  · rw [if_pos hfour, if_pos (by omega), if_pos (by omega)]
    exact ⟨0, by decide, rfl, by simp [ds, ofDigits]; omega⟩
  rw [if_neg hfour]
  by_cases hthree : 0x100 ≤ x
  · rw [if_pos hthree, if_pos (by omega)]
    exact ⟨1, by decide, rfl, by simp [ds, ofDigits]; omega⟩
  rw [if_neg hthree]
  by_cases htwo : 0x10 ≤ x
  · rw [if_pos htwo]
    exact ⟨2, by decide, rfl, by simp [ds, ofDigits]; omega⟩
  · rw [if_neg htwo]
    exact ⟨3, by decide, rfl, by simp [ds, ofDigits]; omega⟩

theorem hexField_appendHex {x : Nat} (hx : x < 65536) (hrest : ∀ b ∈ rest.head?, unhex b = none) :
    hexField (appendHex x ++ rest) = some (x, rest) := by
  obtain ⟨ds, htext, hds, hne, hlen, hvalue⟩ := appendHex_spec hx
  have hhex : ∀ b ∈ ds.map lowerHex, (unhex b).isSome = true := by
    intro b hb
    obtain ⟨d, hd, rfl⟩ := List.mem_map.mp hb
    rw [unhex_lowerHex (hds d hd)]
    rfl
  have hstop : rest.takeWhile (fun b => (unhex b).isSome) = [] := by
    cases rest with
    | nil => rfl
    | cons b rest => rw [takeWhile_cons_of_neg (by rw [hrest b rfl]; decide)]
  have htake : (ds.map lowerHex ++ rest).takeWhile (fun b => (unhex b).isSome) =
      ds.map lowerHex := by
    rw [takeWhile_append_of_pos hhex, hstop, append_nil]
  have hvalues : (ds.map lowerHex).map (fun b => (unhex b).getD 0) = ds := by
    rw [List.map_map]
    refine (map_congr_left fun d hd => ?_).trans (List.map_id ds)
    exact congrArg (Option.getD · 0) (unhex_lowerHex (hds d hd))
  have hgood : ¬ (ds.map lowerHex = [] ∨ 4 < (ds.map lowerHex).length) := by
    rw [map_eq_nil_iff, length_map]
    exact fun h => h.elim hne (by omega)
  unfold hexField
  rw [htext]
  dsimp only
  rw [htake, if_neg hgood, hvalues, hvalue, drop_left]

section fields
variable {f : Fields} {room x : Nat} (hx : x < 65536)
include hx

theorem ipv6Fields_end : ipv6Fields f (room + 1) (appendHex x) =
    some { f with groups := f.groups ++ [x] } := by
  have hread : hexField (appendHex x ++ []) = some (x, []) := hexField_appendHex hx nofun
  rw [append_nil] at hread
  rw [ipv6Fields, hread]
  rfl

theorem ipv6Fields_colon (hb : b ≠ 0x3A) :
    ipv6Fields f (room + 1) (appendHex x ++ 0x3A :: b :: rest) =
      ipv6Fields { f with groups := f.groups ++ [x] } room (b :: rest) := by
  rw [ipv6Fields, hexField_appendHex hx (by rintro _ ⟨⟩; decide)]
  dsimp only [bind_eq_bind, bind_some]
  rw [if_neg (by decide), if_neg (by decide), if_neg hb]

theorem ipv6Fields_ellipsis (hf : f.ellipsis = none) :
    ipv6Fields f (room + 1) (appendHex x ++ 0x3A :: 0x3A :: rest) =
      if rest = [] then some ⟨f.groups ++ [x], some (f.groups ++ [x]).length⟩
      else ipv6Fields ⟨f.groups ++ [x], some (f.groups ++ [x]).length⟩ room rest := by
  rw [ipv6Fields, hexField_appendHex hx (by rintro _ ⟨⟩; decide)]
  dsimp only [bind_eq_bind, bind_some]
  rw [if_neg (by decide), if_neg (by decide), if_pos rfl, if_neg (by rw [hf]; decide)]

end fields

def groupsText (gs : List Nat) : Bytes := joined 0x3A (gs.map appendHex)

theorem appendHex_head {x : Nat} (hx : x < 65536) :
    ∃ d < 16, ∃ tail, appendHex x = lowerHex d :: tail := by
  obtain ⟨ds, htext, hds, hne, -, -⟩ := appendHex_spec hx
  obtain ⟨d, tail, rfl⟩ := exists_cons_of_ne_nil hne
  exact ⟨d, hds d mem_cons_self, tail.map lowerHex, htext⟩

theorem lowerHex_ne (h : d < 16) (hb : unhex b = none) : lowerHex d ≠ b := by
  rintro rfl
  rw [unhex_lowerHex h] at hb
  cases hb

variable {gs : List Nat}

theorem groupsText_head (hne : gs ≠ []) (hx : ∀ x ∈ gs, x < 65536) :
    ∃ d < 16, ∃ tail, groupsText gs = lowerHex d :: tail := by
  obtain ⟨x, gs, rfl⟩ := exists_cons_of_ne_nil hne
  obtain ⟨d, hd, tail, htext⟩ := appendHex_head (hx x mem_cons_self)
  unfold groupsText
  rw [map_cons]
  by_cases hgs : gs.map appendHex = []
  · rw [hgs, joined_singleton]
    exact ⟨d, hd, tail, htext⟩
  · rw [joined_cons _ hgs, htext]
    exact ⟨d, hd, _, rfl⟩

theorem groupsText_cons {x : Nat} (hne : gs ≠ []) :
    groupsText (x :: gs) = appendHex x ++ 0x3A :: groupsText gs := by
  unfold groupsText
  rw [map_cons, joined_cons _ fun h => hne (map_eq_nil_iff.mp h)]

theorem groupsText_singleton (x : Nat) : groupsText [x] = appendHex x :=
  joined_singleton 0x3A (appendHex x)

theorem groupsText_nil : groupsText [] = [] := joined_nil 0x3A

theorem ipv6Fields_cons {f : Fields} {room x : Nat} (hx : ∀ y ∈ x :: gs, y < 65536) (hne : gs ≠ [])
    (rest : Bytes) : ipv6Fields f (room + 1) (groupsText (x :: gs) ++ rest) =
      ipv6Fields { f with groups := f.groups ++ [x] } room (groupsText gs ++ rest) := by
  obtain ⟨hx, hxs⟩ := forall_mem_cons.mp hx
  obtain ⟨d, hd, tail, htext⟩ := groupsText_head hne hxs
  rw [groupsText_cons hne, htext, append_assoc]
  exact ipv6Fields_colon hx (lowerHex_ne hd (by decide))

theorem ipv6Fields_groupsText {f : Fields} {room : Nat} (hne : gs ≠ []) (hx : ∀ x ∈ gs, x < 65536)
    (hroom : gs.length ≤ room) :
    ipv6Fields f room (groupsText gs) = some { f with groups := f.groups ++ gs } := by
  induction gs generalizing f room with
  | nil => exact absurd rfl hne
  | cons x gs ih =>
    obtain ⟨room, rfl⟩ : ∃ k, room = k + 1 := ⟨room - 1, by rw [length_cons] at hroom; omega⟩
    by_cases hgs : gs = []
    · rw [hgs, groupsText_singleton, ipv6Fields_end (hx x mem_cons_self)]
    · have hcons : ipv6Fields f (room + 1) (groupsText (x :: gs) ++ []) = _ :=
        ipv6Fields_cons hx hgs []
      rw [append_nil, append_nil] at hcons
      rw [hcons, ih hgs (fun y hy => hx y (mem_cons_of_mem x hy))
        (by rw [length_cons] at hroom; omega), append_assoc]
      rfl

theorem ipv6Fields_front {f : Fields} (hf : f.ellipsis = none) {room : Nat} (hne : gs ≠ [])
    (hx : ∀ x ∈ gs, x < 65536) (hroom : gs.length ≤ room) (rest : Bytes) :
    ipv6Fields f room (groupsText gs ++ 0x3A :: 0x3A :: rest) =
      if rest = [] then some ⟨f.groups ++ gs, some (f.groups ++ gs).length⟩
      else ipv6Fields ⟨f.groups ++ gs, some (f.groups ++ gs).length⟩ (room - gs.length) rest := by
  induction gs generalizing f room with
  | nil => exact absurd rfl hne
  | cons x gs ih =>
    obtain ⟨room, rfl⟩ : ∃ k, room = k + 1 := ⟨room - 1, by rw [length_cons] at hroom; omega⟩
    by_cases hgs : gs = []
    · rw [hgs, groupsText_singleton, ipv6Fields_ellipsis (hx x mem_cons_self) hf]
      rfl
    · rw [ipv6Fields_cons hx hgs, ih (f := { f with groups := f.groups ++ [x] }) hf hgs
        (fun y hy => hx y (mem_cons_of_mem x hy)) (by rw [length_cons] at hroom; omega)]
      simp only [append_assoc, singleton_append, length_cons, Nat.add_sub_add_right]

structure ZeroRun (gs : List Nat) (first last : Nat) : Prop where
  lt : first < last
  le : last ≤ gs.length
  eq : gs = gs.take first ++ List.replicate (last - first) 0 ++ gs.drop last

theorem zeroRun_at {i : Nat} (hi : i < gs.length)
    (hrun : 2 ≤ ((gs.drop i).takeWhile (· = 0)).length) :
    ZeroRun gs i (i + ((gs.drop i).takeWhile (· = 0)).length) := by
  have hsplit := takeWhile_append_dropWhile (p := (· = 0)) (l := gs.drop i)
  have hzeros : (gs.drop i).takeWhile (· = 0) =
      List.replicate ((gs.drop i).takeWhile (· = 0)).length 0 := by
    refine eq_replicate_of_mem fun x hx => ?_
    exact of_decide_eq_true (mem_takeWhile_imp (p := fun x : Nat => decide (x = 0)) hx)
  have hrest : gs.drop (i + ((gs.drop i).takeWhile (· = 0)).length) =
      (gs.drop i).dropWhile (· = 0) := by
    rw [← drop_drop]
    exact (congrArg _ hsplit.symm).trans drop_left
  have hlen := congrArg List.length hsplit
  rw [length_append, length_drop] at hlen
  refine ⟨by omega, by omega, ?_⟩
  rw [Nat.add_sub_cancel_left, ← hzeros, hrest, append_assoc, hsplit, take_append_drop]

variable {first : Nat}

theorem zeroRun_spec {last : Nat} (h : zeroRun gs = some (first, last)) :
    ZeroRun gs first last := by
  refine List.foldlRecOn (motive := fun best : Option (Nat × Nat) => ∀ run ∈ best,
    ZeroRun gs run.1 run.2) (List.range gs.length) _ ?_ ?_ (first, last) h
  · exact nofun
  · intro best hbest i hi run hrun
    dsimp only at hrun
    rw [mem_def, ite_eq_iff] at hrun
    cases hrun with
    | inl hnew =>
      cases hnew.2
      exact zeroRun_at (mem_range.mp hi) hnew.1.1
    | inr hold => exact hbest run hold.2

theorem ipv6Groups_of_head {s : Bytes} (hb : b ≠ 0x3A) :
    ipv6Groups (b :: s) = (ipv6Fields ⟨[], none⟩ 8 (b :: s)).bind Fields.expand := by
  unfold ipv6Groups
  dsimp only
  split
  · next heq => cases heq; exact absurd rfl hb
  · rfl

theorem ipv6Groups_of_ellipsis : ipv6Groups (0x3A :: 0x3A :: rest) =
    (if rest = [] then some ⟨[], some 0⟩ else ipv6Fields ⟨[], some 0⟩ 8 rest).bind
      Fields.expand := rfl

theorem expand_run (hlen : gs.length = 8) {last : Nat} (hrun : ZeroRun gs first last) :
    Fields.expand ⟨gs.take first ++ gs.drop last, some first⟩ = some gs := by
  have hlt := hrun.lt
  have hle := hrun.le
  have hfirst : (gs.take first).length = first := by rw [length_take]; omega
  have hshort : (gs.take first ++ gs.drop last).length = 8 - (last - first) := by
    rw [length_append, hfirst, length_drop]
    omega
  have htake : (gs.take first ++ gs.drop last).take first = gs.take first :=
    List.take_left' hfirst
  have hdrop : (gs.take first ++ gs.drop last).drop first = gs.drop last :=
    List.drop_left' hfirst
  have hzeros : 8 - (8 - (last - first)) = last - first := by omega
  unfold Fields.expand
  dsimp only
  rw [hshort, if_pos (by omega), htake, hdrop, hzeros, ← hrun.eq]

/-- Eight groups, printed with the ellipsis for a run of zeros. -/
theorem ipv6Groups_run (hlen : gs.length = 8) (hx : ∀ x ∈ gs, x < 65536) {last : Nat}
    (hrun : ZeroRun gs first last) :
    ipv6Groups (groupsText (gs.take first) ++ 0x3A :: 0x3A :: groupsText (gs.drop last)) =
      some gs := by
  have hlt := hrun.lt
  have hle := hrun.le
  have hfirst : (gs.take first).length = first := by rw [length_take]; omega
  have hback : ∀ x ∈ gs.drop last, x < 65536 := fun x h => hx x (mem_of_mem_drop h)
  -- what is behind the ellipsis is read in the same way whatever stands before it
  have htail : ∀ room, (gs.drop last).length ≤ room →
      (if groupsText (gs.drop last) = [] then some ⟨gs.take first, some first⟩
        else ipv6Fields ⟨gs.take first, some first⟩ room (groupsText (gs.drop last))) =
      some ⟨gs.take first ++ gs.drop last, some first⟩ := by
    intro room hroom
    by_cases hnil : gs.drop last = []
    · rw [hnil, append_nil]
      exact if_pos rfl
    · obtain ⟨d, -, tail, htext⟩ := groupsText_head hnil hback
      rw [if_neg (by rw [htext]; exact cons_ne_nil _ _),
        ipv6Fields_groupsText hnil hback hroom]
  have hroom : (gs.drop last).length ≤ 8 - first := by rw [length_drop]; omega
  by_cases hnil : gs.take first = []
  · have hzero : first = 0 := by rw [← hfirst, hnil]; rfl
    have hread := htail 8 (by omega)
    rw [hnil, hzero] at hread
    have hexpand := expand_run hlen hrun
    rw [hnil, hzero] at hexpand
    rw [hnil, groupsText_nil, nil_append, ipv6Groups_of_ellipsis, hread]
    exact hexpand
  · have hfront : ∀ x ∈ gs.take first, x < 65536 := fun x h => hx x (mem_of_mem_take h)
    obtain ⟨d, hd, tail, htext⟩ := groupsText_head hnil hfront
    have hshort : (gs.take first).length ≤ 8 := by omega
    have hread := ipv6Fields_front (f := ⟨[], none⟩) rfl hnil hfront hshort
      (groupsText (gs.drop last))
    rw [nil_append, hfirst, htail _ hroom] at hread
    rw [htext, cons_append, ipv6Groups_of_head (lowerHex_ne hd (by decide)),
      ← cons_append, ← htext, hread]
    exact expand_run hlen hrun

theorem string6_eq (bits : BitVec 128) :
    string6 bits = match zeroRun (toDigits 65536 8 bits.toNat) with
      | none => groupsText (toDigits 65536 8 bits.toNat)
      | some (first, last) => groupsText ((toDigits 65536 8 bits.toNat).take first) ++
          0x3A :: 0x3A :: groupsText ((toDigits 65536 8 bits.toNat).drop last) := by
  unfold string6
  dsimp only
  cases zeroRun (toDigits 65536 8 bits.toNat) with
  | none => rfl
  | some run =>
    dsimp only
    rw [append_assoc]
    rfl

theorem ipv6Groups_string6 (bits : BitVec 128) :
    ipv6Groups (string6 bits) = some (toDigits 65536 8 bits.toNat) := by
  have hlen := length_toDigits 65536 8 bits.toNat
  have hx : ∀ x ∈ toDigits 65536 8 bits.toNat, x < 65536 :=
    fun x h => lt_of_mem_toDigits (by decide) h
  have hne : toDigits 65536 8 bits.toNat ≠ [] := ne_nil_of_length_pos (by omega)
  rw [string6_eq]
  cases hrun : zeroRun (toDigits 65536 8 bits.toNat) with
  | none =>
    obtain ⟨d, hd, tail, htext⟩ := groupsText_head hne hx
    dsimp only
    rw [htext, ipv6Groups_of_head (lowerHex_ne hd (by decide)), ← htext,
      ipv6Fields_groupsText hne hx (by omega), bind_some, nil_append, Fields.expand,
      if_neg (by dsimp only; omega)]
  | some run => exact ipv6Groups_run hlen hx (zeroRun_spec hrun)

/-! ### Addresses -/

theorem mem_appendDecimal {x : Nat} (hx : x < 256) (h : b ∈ appendDecimal x) :
    isDigit b = true := by
  unfold appendDecimal at h
  simp only [mem_append, mem_ite_nil_right, mem_singleton] at h
  obtain (⟨-, rfl⟩ | ⟨-, rfl⟩) | rfl := h
  · exact isDigit_lowerHex (by omega)
  · exact isDigit_lowerHex (by omega)
  · exact isDigit_lowerHex (by omega)

theorem mem_appendHex {x : Nat} (hx : x < 65536) (h : b ∈ appendHex x) :
    (unhex b).isSome = true := by
  obtain ⟨ds, htext, hds, -⟩ := appendHex_spec hx
  rw [htext] at h
  obtain ⟨d, hd, rfl⟩ := List.mem_map.mp h
  rw [unhex_lowerHex (hds d hd)]
  rfl

theorem mem_string4 {bits : BitVec 32} (h : b ∈ string4 bits) : b = 0x2E ∨ isDigit b = true := by
  obtain h | ⟨t, ht, hb⟩ := mem_joined h
  · exact .inl h
  · obtain ⟨x, hx, rfl⟩ := List.mem_map.mp ht
    exact .inr (mem_appendDecimal (lt_of_mem_toDigits (by decide) hx) hb)

theorem mem_groupsText (hx : ∀ x ∈ gs, x < 65536) (h : b ∈ groupsText gs) :
    b = 0x3A ∨ (unhex b).isSome = true := by
  obtain h | ⟨t, ht, hb⟩ := mem_joined h
  · exact .inl h
  · obtain ⟨x, hmem, rfl⟩ := List.mem_map.mp ht
    exact .inr (mem_appendHex (hx x hmem) hb)

theorem mem_string6 {bits : BitVec 128} (h : b ∈ string6 bits) :
    b = 0x3A ∨ (unhex b).isSome = true := by
  have hx : ∀ x ∈ toDigits 65536 8 bits.toNat, x < 65536 :=
    fun x h => lt_of_mem_toDigits (by decide) h
  rw [string6_eq] at h
  cases hrun : zeroRun (toDigits 65536 8 bits.toNat) with
  | none =>
    rw [hrun] at h
    exact mem_groupsText hx h
  | some run =>
    rw [hrun] at h
    simp only [mem_append, mem_cons] at h
    obtain h | h | h | h := h
    · exact mem_groupsText (fun x hmem => hx x (mem_of_mem_take hmem)) h
    · exact .inl h
    · exact .inl h
    · exact mem_groupsText (fun x hmem => hx x (mem_of_mem_drop hmem)) h

theorem dot_mem_string4 (bits : BitVec 32) : 0x2E ∈ string4 bits :=
  sep_mem_joined (by rw [length_map, length_toDigits]; decide)

theorem colon_mem_string6 (bits : BitVec 128) : 0x3A ∈ string6 bits := by
  rw [string6_eq]
  cases zeroRun (toDigits 65536 8 bits.toNat) with
  | none => exact sep_mem_joined (by rw [length_map, length_toDigits]; decide)
  | some run => exact mem_append_right _ mem_cons_self

theorem find_telling {c : UInt8} (hc : telling c = true) {s : Bytes} (hmem : c ∈ s)
    (h : ∀ b ∈ s, telling b = true → b = c) (rest : Bytes) :
    (s ++ rest).find? telling = some c := by
  obtain ⟨b, hb⟩ := isSome_iff_exists.mp (List.find?_isSome.mpr ⟨c, hmem, hc⟩)
  have heq := h b (List.mem_of_find?_eq_some hb) (List.find?_some hb)
  rw [List.find?_append, hb, heq]
  rfl

theorem telling_hex (h : telling b = true) : unhex b = none := by
  simp only [telling, Bool.or_eq_true, decide_eq_true_eq] at h
  obtain (rfl | rfl) | rfl := h <;> decide

theorem isDigit_unhex (h : isDigit b = true) : (unhex b).isSome = true := by
  simp only [isDigit, Bool.and_eq_true, decide_eq_true_eq] at h
  unfold unhex
  rw [if_pos h]
  rfl

theorem find_telling_string4 (bits : BitVec 32) (rest : Bytes) :
    (string4 bits ++ rest).find? telling = some 0x2E := by
  refine find_telling (by decide) (dot_mem_string4 bits) (fun b hb htell => ?_) rest
  refine (mem_string4 hb).resolve_right fun hdigit => ?_
  have hhex := isDigit_unhex hdigit
  rw [telling_hex htell] at hhex
  cases hhex

theorem find_telling_string6 (bits : BitVec 128) (rest : Bytes) :
    (string6 bits ++ rest).find? telling = some 0x3A := by
  refine find_telling (by decide) (colon_mem_string6 bits) (fun b hb htell => ?_) rest
  refine (mem_string6 hb).resolve_right fun hhex => ?_
  rw [telling_hex htell] at hhex
  cases hhex

theorem parseAddr_string4 (bits : BitVec 32) : parseAddr (string4 bits) = some (.v4 bits) := by
  have hfind := find_telling_string4 bits []
  rw [append_nil] at hfind
  unfold parseAddr
  rw [hfind]
  dsimp only [parseIPv4, bind_eq_bind]
  rw [ipv4Fields_string4, bind_some, ofDigits_toDigits (by exact bits.isLt),
    BitVec.ofNat_toNat, BitVec.setWidth_eq]
  rfl

theorem percent_notMem_string6 (bits : BitVec 128) : 0x25 ∉ string6 bits := by
  intro h
  cases mem_string6 h with
  | inl heq => cases heq
  | inr hhex => cases hhex

/-- The bits are read as they are printed, with a zone behind them or without. -/
theorem parseAddr_string6 (bits : BitVec 128) : parseAddr (string6 bits) = some (.v6 bits []) ∧
    ∀ zone, zone ≠ [] → parseAddr (string6 bits ++ 0x25 :: zone) = some (.v6 bits zone) := by
  have hbits : (ipv6Groups (string6 bits)).map
      (fun groups => BitVec.ofNat 128 (ofDigits 65536 groups)) = some bits := by
    rw [ipv6Groups_string6, map_some, ofDigits_toDigits (by exact bits.isLt),
      BitVec.ofNat_toNat, BitVec.setWidth_eq]
  have hclean := forall_ne_of_notMem (percent_notMem_string6 bits)
  constructor
  · have hfind := find_telling_string6 bits []
    rw [append_nil] at hfind
    unfold parseAddr
    rw [hfind]
    dsimp only [parseIPv6]
    rw [span_all hclean]
    dsimp only
    rw [hbits]
    rfl
  · intro zone hzone
    unfold parseAddr
    rw [find_telling_string6]
    dsimp only [parseIPv6]
    rw [span_stop hclean (by decide)]
    dsimp only
    rw [if_neg hzone, hbits]
    rfl

theorem length_appendDecimal (x : Nat) : (appendDecimal x).length ≤ 3 := by
  unfold appendDecimal
  rw [length_append, length_append]
  split <;> split <;> simp

theorem hexField_string4 (bits : BitVec 32) :
    ∃ acc rest, hexField (string4 bits) = some (acc, 0x2E :: rest) := by
  obtain ⟨x, rest, hx, htext⟩ : ∃ x rest, x < 256 ∧ string4 bits = appendDecimal x ++ 0x2E :: rest :=
    ⟨_, _, Nat.mod_lt _ (by decide), joined_cons _ (cons_ne_nil _ _)⟩
  have hhex : ∀ b ∈ appendDecimal x, (unhex b).isSome = true :=
    fun b hb => isDigit_unhex (mem_appendDecimal hx hb)
  have htake : (appendDecimal x ++ 0x2E :: rest).takeWhile (fun b => (unhex b).isSome) =
      appendDecimal x := by
    rw [takeWhile_append_of_pos hhex, takeWhile_cons_of_neg (by decide), append_nil]
  have hgood : ¬ (appendDecimal x = [] ∨ 4 < (appendDecimal x).length) := by
    have hlen := length_appendDecimal x
    exact fun h => h.elim (appendDecimal_ne_nil x) (by omega)
  unfold hexField
  dsimp only
  rw [htext, htake, if_neg hgood, drop_left]
  exact ⟨_, _, rfl⟩

theorem ipv6Fields_string4 {f : Fields} (hf : f.ellipsis ≠ none) (hroom : f.groups.length ≤ 6)
    {room : Nat} (bits : BitVec 32) :
    ipv6Fields f (room + 1) (string4 bits) =
      some { f with groups := f.groups ++ toDigits 65536 2 bits.toNat } := by
  obtain ⟨acc, rest, hfield⟩ := hexField_string4 bits
  rw [ipv6Fields, hfield]
  dsimp only [bind_eq_bind, bind_some]
  rw [if_pos rfl, if_neg fun h => hf h.1, if_neg (by omega), ipv4Fields_string4, bind_some,
    ofDigits_toDigits (by exact bits.isLt)]

theorem ipv6Groups_mapped (bits : BitVec 32) :
    ipv6Groups (0x3A :: 0x3A :: (appendHex 0xFFFF ++ 0x3A :: string4 bits)) =
      some (List.replicate 5 0 ++ 0xFFFF :: toDigits 65536 2 bits.toNat) := by
  obtain ⟨b, rest, htext⟩ := exists_cons_of_ne_nil (ne_nil_of_mem (dot_mem_string4 bits))
  have hb : b ≠ 0x3A := by
    have hmem : b ∈ string4 bits := by rw [htext]; exact mem_cons_self
    rintro rfl
    exact absurd (mem_string4 hmem) (by decide)
  rw [ipv6Groups_of_ellipsis, if_neg (append_ne_nil_of_right_ne_nil _ (cons_ne_nil _ _)),
    htext, ipv6Fields_colon (by decide) hb, ← htext, ipv6Fields_string4 (some_ne_none 0) (by simp)]
  rfl

/-- The form that `netip` prints an IPv4-mapped address in. -/
theorem parseAddr_mapped (bits : BitVec 32) :
    parseAddr (utf8 "::ffff:" ++ string4 bits) = some (.v6 (mapped bits) []) := by
  have htext : utf8 "::ffff:" ++ string4 bits =
      0x3A :: 0x3A :: (appendHex 0xFFFF ++ 0x3A :: string4 bits) := by
    have hmark : utf8 "::ffff:" = 0x3A :: 0x3A :: (appendHex 0xFFFF ++ [0x3A]) := by decide
    rw [hmark]
    simp
  have hclean : ∀ b ∈ 0x3A :: 0x3A :: (appendHex 0xFFFF ++ 0x3A :: string4 bits),
      decide (b ≠ 0x25) = true := by
    refine forall_ne_of_notMem fun h => ?_
    have hmem : 0x25 ∈ string4 bits := by
      have hmark : 0x25 ∉ appendHex 0xFFFF := by decide
      simpa [hmark] using h
    exact absurd (mem_string4 hmem) (by decide)
  have hvalue : ofDigits 65536 (List.replicate 5 0 ++ 0xFFFF :: toDigits 65536 2 bits.toNat) =
      (mapped bits).toNat := by
    have hlt := bits.isLt
    rw [toNat_mapped]
    simp only [toDigits, ofDigits, List.replicate, cons_append, nil_append,
      foldl_cons, foldl_nil]
    omega
  unfold parseAddr
  rw [htext, List.find?_cons_of_pos rfl]
  dsimp only [parseIPv6]
  rw [span_all hclean]
  dsimp only
  rw [ipv6Groups_mapped, map_some, hvalue, BitVec.ofNat_toNat, BitVec.setWidth_eq]
  rfl

/-- A colon is what makes an address an IPv6 one. -/
theorem colon_of_parseAddr {s : Bytes} {a : Addr} (h : parseAddr s = some a) :
    (0x3A ∉ s ∧ ∃ bits, a = .v4 bits) ∨ (0x3A ∈ s ∧ ∃ bits zone, a = .v6 bits zone) := by
  unfold parseAddr at h
  split at h
  · next hfind =>
    left
    dsimp only [parseIPv4, bind_eq_bind] at h
    obtain ⟨octets, hoctets, ha⟩ := bind_eq_some_iff.mp h
    refine ⟨fun hmem => ?_, _, (some.inj ha).symm⟩
    rw [ipv4Fields_none (by decide) (by decide) hmem] at hoctets
    cases hoctets
  · next hfind =>
    refine .inr ⟨List.mem_of_find?_eq_some hfind, ?_⟩
    unfold parseIPv6 at h
    dsimp only at h
    split at h
    · obtain ⟨bits, -, ha⟩ := map_eq_some_iff.mp h
      exact ⟨bits, [], ha.symm⟩
    · next zone _ =>
      split at h
      · cases h
      · obtain ⟨bits, -, ha⟩ := map_eq_some_iff.mp h
        exact ⟨bits, _, ha.symm⟩
  · cases h

/-! ### Host and port -/

theorem mem_of_span_closed {host h : Bytes} {c : UInt8}
    (hspan : (host ++ [b]).span (· ≠ b) = (h, [c])) : b ∉ host := by
  intro hmem
  obtain ⟨front, back, rfl, hfront⟩ := eq_append_cons_of_mem hmem
  rw [append_assoc, cons_append, span_stop (forall_ne_of_notMem hfront) (by simp)] at hspan
  have hlen := congrArg (fun x => x.2.length) hspan
  simp at hlen

section hostPort
variable {host port : Bytes} (hport : ∀ b ∈ port, isDigit b = true)
include hport

theorem notMem_port {c : UInt8} (hc : isDigit c = false) : c ∉ port := by
  intro hmem
  rw [hport c hmem] at hc
  cases hc

theorem splitHost_bracketed :
    splitHost (0x5B :: host ++ [0x5D, 0x3A] ++ port) =
      if 0x5B ∈ host ∨ 0x5D ∈ host then none else some host := by
  have hcut := cutLast_append (notMem_port hport (c := 0x3A) rfl) (0x5B :: (host ++ [0x5D]))
  have hopen := notMem_port hport (c := 0x5B) rfl
  have hclose := notMem_port hport (c := 0x5D) rfl
  have htext : 0x5B :: host ++ [0x5D, 0x3A] ++ port =
      0x5B :: (host ++ [0x5D]) ++ 0x3A :: port := by simp
  unfold splitHost
  rw [htext, hcut]
  dsimp only [bind_eq_bind, bind_some]
  split
  · next inner heq =>
    obtain rfl : host ++ [0x5D] = inner := (List.cons.inj heq).2
    by_cases hin : 0x5D ∈ host
    · rw [if_pos (.inr hin)]
      split
      · next hspan => exact absurd hin (mem_of_span_closed hspan)
      · rfl
    · rw [span_stop (forall_ne_of_notMem hin) (decide_eq_false fun hne => hne rfl)]
      simp only [mem_append, hopen, hclose, hin, or_false]
  · next hother => exact absurd rfl (hother _)

theorem splitHost_plain (hcolon : 0x3A ∉ host) (hhead : host.head? ≠ some 0x5B) :
    splitHost (host ++ 0x3A :: port) =
      if 0x5B ∈ host ∨ 0x5D ∈ host then none else some host := by
  have hopen := notMem_port hport (c := 0x5B) rfl
  have hclose := notMem_port hport (c := 0x5D) rfl
  unfold splitHost
  rw [cutLast_append (notMem_port hport rfl)]
  dsimp only [bind_eq_bind, bind_some]
  split
  · exact absurd rfl hhead
  · simp [hcolon, hopen, hclose]

/-- The host comes back unless it has a bracket in it. -/
theorem splitHost_joinHostPort (hhead : host.head? ≠ some 0x5B) :
    splitHost (joinHostPort host port) =
      if 0x5B ∈ host ∨ 0x5D ∈ host then none else some host := by
  unfold joinHostPort
  by_cases hcolon : 0x3A ∈ host
  · rw [if_pos hcolon, splitHost_bracketed hport]
  · rw [if_neg hcolon, splitHost_plain hport hcolon hhead]

end hostPort

end GolangBasics.Netip
