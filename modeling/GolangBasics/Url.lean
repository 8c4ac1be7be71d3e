import GolangBasics.Json
import Mathlib.Data.List.TakeDrop

/-! Request targets as `net/url` and the `http.ServeMux` read them. -/
namespace GolangBasics.Url
open List Option
open Json (unhex)

/-- `unescape`; in a query a plus sign is a space. -/
def unescape (query : Bool) : Bytes → Option Bytes
  | [] => some []
  | b :: rest =>
    if b = 0x25 then
      match rest with
      | h :: l :: rest => do
        let hi ← unhex h
        let lo ← unhex l
        let s ← unescape query rest
        some (UInt8.ofNat (hi * 16 + lo) :: s)
      | _ => none
    else do
      let s ← unescape query rest
      some ((if query && b = 0x2B then 0x20 else b) :: s)

def isAlphanumeric (b : UInt8) : Bool :=
  (0x61 ≤ b && b ≤ 0x7A) || (0x41 ≤ b && b ≤ 0x5A) || (0x30 ≤ b && b ≤ 0x39)

def unreserved (b : UInt8) : Bool := isAlphanumeric b || (utf8 "-_.~$&+,/:;=@").contains b

/-- `validEncoded`: the bytes that may stand in a path unescaped, and escapes. -/
def validEncoded (s : Bytes) : Bool :=
  s.all fun b => unreserved b || (utf8 "!'()*[]%").contains b

def upperHex (n : Nat) : UInt8 := if n < 10 then UInt8.ofNat (0x30 + n) else UInt8.ofNat (0x37 + n)

def escape (s : Bytes) : Bytes :=
  s.flatMap fun b =>
    if unreserved b then [b] else [0x25, upperHex (b.toNat / 16), upperHex (b.toNat % 16)]

/-- `EscapedPath` of a URL whose path was sent as `raw`, and `none` when that has an invalid
escape. -/
def escapedPath (raw : Bytes) : Option Bytes := do
  let path ← unescape false raw
  some (if validEncoded raw then raw else escape path)

def containsCTL (s : Bytes) : Bool := s.any fun b => b < 0x20 || b = 0x7F

def cut (sep : UInt8) (s : Bytes) : Bytes × Bytes :=
  match s.span (· ≠ sep) with
  | (before, _ :: after) => (before, after)
  | (before, []) => (before, [])

def pathUnescape (segment : Bytes) : Bytes := (unescape false segment).getD segment

/-- A pair of a query; one with a semicolon or an invalid escape is dropped. -/
def queryPair (pair : Bytes) : Option (Bytes × Bytes) :=
  if pair.contains 0x3B || pair.isEmpty then none
  else
    let (key, value) := cut 0x3D pair
    match unescape true key, unescape true value with
    | some key, some value => some (key, value)
    | _, _ => none

def queryPairs (raw : Bytes) : List (Bytes × Bytes) := (raw.splitOn 0x26).filterMap queryPair

def maxQueryParams : Nat := 10000

/-- `URL.Query`: the pairs in the order of the query, and none of them if they are too many. -/
def query (raw : Bytes) : List (Bytes × Bytes) :=
  if maxQueryParams < raw.count 0x26 + 1 then [] else queryPairs raw

def nulEscape : Bytes := [0x25, 0x30, 0x30]

theorem unescape_plain {query : Bool} {b : UInt8} (hb : b ≠ 0x25) (rest : Bytes) :
    unescape query (b :: rest) =
      (unescape query rest).map ((if query && b = 0x2B then 0x20 else b) :: ·) := by
  rw [unescape.eq_def]
  simp only [hb, if_false]
  cases unescape query rest <;> rfl

theorem unescape_percent {query : Bool} {h l : UInt8} {hi lo : Nat} (hhi : unhex h = some hi)
    (hlo : unhex l = some lo) (rest : Bytes) : unescape query (0x25 :: h :: l :: rest) =
      (unescape query rest).map (UInt8.ofNat (hi * 16 + lo) :: ·) := by
  rw [unescape.eq_def]
  simp only [if_true, hhi, hlo, bind_eq_bind, bind_some]
  cases unescape query rest <;> rfl

theorem unescape_percent_some {query : Bool} {rest t : Bytes}
    (h : unescape query (0x25 :: rest) = some t) :
    ∃ d₁ d₂ rest' hi lo u, rest = d₁ :: d₂ :: rest' ∧ unhex d₁ = some hi ∧ unhex d₂ = some lo ∧
      unescape query rest' = some u ∧ t = UInt8.ofNat (hi * 16 + lo) :: u := by
  rw [unescape.eq_def] at h
  simp only [if_true] at h
  split at h
  · rename_i d₁ d₂ rest'
    obtain ⟨hi, hhi, h⟩ := bind_eq_some_iff.mp h
    obtain ⟨lo, hlo, h⟩ := bind_eq_some_iff.mp h
    obtain ⟨u, hu, h⟩ := bind_eq_some_iff.mp h
    exact ⟨d₁, d₂, rest', hi, lo, u, rfl, hhi, hlo, hu, (some.inj h).symm⟩
  · cases h

theorem unhex_some {b : UInt8} {n : Nat} (h : unhex b = some n) :
    n < 16 ∧ b ≠ 0x25 ∧ (n = 0 ↔ b = 0x30) := by
  simp only [unhex, UInt8.le_iff_toNat_le, UInt8.reduceToNat] at h
  simp only [ne_eq, ← UInt8.toNat_inj, UInt8.reduceToNat]
  split_ifs at h
  all_goals
    obtain rfl := some.inj h
    omega

/-- An escape is the only way to write a NUL byte. -/
theorem unescape_nul {s t : Bytes} (h : unescape false s = some t) (hs : 0 ∉ s) :
    0 ∈ t ↔ nulEscape <:+: s := by
  induction s using unescape.induct generalizing t with
  | case1 =>
    obtain rfl := some.inj h
    simp [nulEscape]
  | case2 d₁ d₂ rest ih =>
    obtain ⟨_, _, _, hi, lo, u, heq, hhi, hlo, hu, rfl⟩ := unescape_percent_some h
    cases heq
    obtain ⟨hhi₁, hhi₂, hhi₃⟩ := unhex_some hhi
    obtain ⟨hlo₁, hlo₂, hlo₃⟩ := unhex_some hlo
    have hbyte : (0 : UInt8) = UInt8.ofNat (hi * 16 + lo) ↔ d₁ = 0x30 ∧ d₂ = 0x30 := by
      have hlt : hi * 16 + lo < 256 := by omega
      rw [← hhi₃, ← hlo₃, ← UInt8.toNat_inj, UInt8.toNat_ofNat_of_lt' hlt]
      simp only [UInt8.toNat_zero]
      omega
    -- the digits of an escape start no other one
    have hwritten : nulEscape <:+: 0x25 :: d₁ :: d₂ :: rest ↔
        (d₁ = 0x30 ∧ d₂ = 0x30) ∨ nulEscape <:+: rest := by
      simp only [nulEscape, infix_cons_iff, cons_prefix_cons, nil_prefix]
      simp [Ne.symm hhi₂, Ne.symm hlo₂, eq_comm]
    rw [hwritten, mem_cons, hbyte, ih hu (fun hmem => hs (by simp [hmem]))]
  | case3 rest hrest =>
    obtain ⟨d₁, d₂, rest', _, _, _, heq, -⟩ := unescape_percent_some h
    exact absurd heq (hrest d₁ d₂ rest')
  | case4 b rest hb ih =>
    rw [unescape_plain hb] at h
    obtain ⟨u, hu, rfl⟩ := map_eq_some_iff.mp h
    have hb₀ : (0 : UInt8) ≠ b := fun h => hs (by simp [h])
    have hwritten : nulEscape <:+: b :: rest ↔ nulEscape <:+: rest := by
      simp only [nulEscape, infix_cons_iff, cons_prefix_cons]
      simp [Ne.symm hb]
    rw [hwritten]
    simp [hb₀, ih hu (fun hmem => hs (by simp [hmem]))]

theorem unescape_escape (s : Bytes) : unescape false (escape s) = some s := by
  induction s with
  | nil => rfl
  | cons b rest ih =>
    have hlt := b.toNat_lt
    have hdigit : ∀ n < 16, unhex (upperHex n) = some n := by decide
    simp only [escape, flatMap_cons] at ih ⊢
    split_ifs with hb
    · have hne : b ≠ 0x25 := by
        rintro rfl
        exact absurd hb (by decide)
      rw [singleton_append, unescape_plain hne, ih]
      rfl
    · have hbyte : UInt8.ofNat (b.toNat / 16 * 16 + b.toNat % 16) = b := by
        rw [Nat.div_add_mod']
        exact UInt8.ofNat_toNat
      simp only [cons_append, nil_append]
      rw [unescape_percent (hdigit _ (by omega)) (hdigit _ (by omega)), ih, hbyte]
      rfl

theorem nul_notMem_escape (s : Bytes) : 0 ∉ escape s := by
  intro h
  obtain ⟨b, -, hb⟩ := mem_flatMap.mp h
  have hlt := b.toNat_lt
  have hdigit : ∀ n < 16, (0 : UInt8) ≠ upperHex n := by decide
  split_ifs at hb with hres
  · obtain rfl := mem_singleton.mp hb
    exact absurd hres (by decide)
  · simp only [mem_cons, not_mem_nil, or_false] at hb
    obtain hb | hb | hb := hb
    · exact absurd hb (by decide)
    · exact hdigit _ (by omega) hb
    · exact hdigit _ (by omega) hb

/-- A path that the server takes has valid escapes and no NUL byte. -/
theorem escapedPath_some {raw path : Bytes} (h : escapedPath raw = some path)
    (hraw : containsCTL raw = false) : (∃ t, unescape false path = some t) ∧ 0 ∉ path := by
  obtain ⟨t, ht, h⟩ := bind_eq_some_iff.mp h
  obtain rfl := some.inj h
  split_ifs
  · refine ⟨⟨t, ht⟩, fun hmem => ?_⟩
    simp only [containsCTL, List.any_eq_false] at hraw
    exact hraw 0 hmem (by decide)
  · exact ⟨⟨t, unescape_escape t⟩, nul_notMem_escape t⟩

theorem unescape_slash {a b t : Bytes} (h : unescape false (a ++ 0x2F :: b) = some t) :
    (∃ u, unescape false a = some u) ∧ ∃ u, unescape false b = some u := by
  induction a using unescape.induct generalizing t with
  | case1 =>
    rw [nil_append, unescape_plain (by decide)] at h
    obtain ⟨u, hu, -⟩ := map_eq_some_iff.mp h
    exact ⟨⟨[], rfl⟩, u, hu⟩
  | case2 d₁ d₂ rest ih =>
    obtain ⟨_, _, _, hi, lo, u, heq, hhi, hlo, hu, rfl⟩ := unescape_percent_some h
    cases heq
    obtain ⟨⟨v, hv⟩, hb⟩ := ih hu
    exact ⟨⟨_, by rw [unescape_percent hhi hlo, hv]; rfl⟩, hb⟩
  | case3 rest hrest =>
    -- an escape that is cut short by the slash
    obtain ⟨d₁, d₂, rest', hi, lo, u, heq, hhi, hlo, -⟩ := unescape_percent_some h
    match rest with
    | [] =>
      cases heq
      cases hhi
    | [d] =>
      cases heq
      cases hlo
    | d₁ :: d₂ :: rest => exact absurd rfl (hrest d₁ d₂ rest)
  | case4 b rest hb ih =>
    rw [cons_append, unescape_plain hb] at h
    obtain ⟨u, hu, -⟩ := map_eq_some_iff.mp h
    obtain ⟨⟨v, hv⟩, hb'⟩ := ih hu
    exact ⟨⟨_, by rw [unescape_plain hb, hv]; rfl⟩, hb'⟩

theorem unescape_self {query : Bool} {s : Bytes} (h : ∀ b ∈ s, b ≠ 0x25 ∧ b ≠ 0x2B) :
    unescape query s = some s := by
  induction s with
  | nil => rfl
  | cons b s ih =>
    obtain ⟨hb, hs⟩ := forall_mem_cons.mp h
    rw [unescape_plain hb.1, ih hs, map_some]
    simp [hb.2]

/-- The bytes that a query does not give a meaning. -/
def plainInQuery (b : UInt8) : Bool := b ∉ [0x25, 0x26, 0x2B, 0x3B, 0x3D]

theorem cut_append {sep : UInt8} {before : Bytes} (h : sep ∉ before) (after : Bytes) :
    cut sep (before ++ sep :: after) = (before, after) := by
  have hne : ∀ b ∈ before, decide (b ≠ sep) = true := by
    intro b hb
    exact decide_eq_true fun heq => h (heq ▸ hb)
  unfold cut
  rw [span_eq_takeWhile_dropWhile, takeWhile_append_of_pos hne,
    dropWhile_append_of_pos hne]
  simp

/-- A parameter that has only plain bytes is read as it stands. -/
theorem query_plain {key value : Bytes} (hkey : ∀ b ∈ key, plainInQuery b = true)
    (hvalue : ∀ b ∈ value, plainInQuery b = true) :
    query (key ++ 0x3D :: value) = [(key, value)] := by
  have hplain {s : Bytes} (h : ∀ b ∈ s, plainInQuery b = true) {c : UInt8}
      (hc : plainInQuery c = false) : c ∉ s := by
    intro hmem
    rw [h c hmem] at hc
    cases hc
  have hamp : 0x26 ∉ key ++ 0x3D :: value := by
    simp [hplain hkey (c := 0x26) rfl, hplain hvalue (c := 0x26) rfl]
  have hsplit : ∀ b ∈ key ++ 0x3D :: value, (b == 0x26) = false := by
    intro b hb
    rw [beq_eq_false_iff_ne]
    rintro rfl
    exact hamp hb
  have hsemicolon : (key ++ 0x3D :: value).contains 0x3B = false := by
    simp [hplain hkey (c := 0x3B) rfl, hplain hvalue (c := 0x3B) rfl]
  have hself {s : Bytes} (h : ∀ b ∈ s, plainInQuery b = true) : unescape true s = some s := by
    refine unescape_self fun b hb => ⟨?_, ?_⟩
    · rintro rfl
      exact hplain h (c := 0x25) rfl hb
    · rintro rfl
      exact hplain h (c := 0x2B) rfl hb
  have hpair : queryPair (key ++ 0x3D :: value) = some (key, value) := by
    unfold queryPair
    rw [hsemicolon, cut_append (hplain hkey rfl)]
    simp [hself hkey, hself hvalue]
  unfold query queryPairs List.splitOn
  rw [count_eq_zero.mpr hamp, if_neg (by decide), splitOnP_eq_singleton hsplit,
    filterMap_cons, hpair, filterMap_nil]

end GolangBasics.Url
