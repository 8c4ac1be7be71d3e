import GolangBasics.Httpx.RedactUrl

/-! The query as `redactURL` writes it anew: which pairs are in it, and on what it depends. -/
namespace GolangBasics.Httpx.Redact
open List
open Strings (joined)
open Url (unescape unescape_plain isUnreserved queryPair queryPairs)

theorem queryPairs_joined {pairs : List Bytes} (hamp : ∀ pair ∈ pairs, 0x26 ∉ pair) (hne : pairs ≠ []) :
    queryPairs (joined 0x26 pairs) = pairs.filterMap queryPair := by
  rw [queryPairs, joined, splitOn_intercalate 0x26 hamp hne]

theorem queryPair_eq {key value : Bytes} (heq : 0x3D ∉ key) :
    queryPair (key ++ 0x3D :: value) =
      if 0x3B ∈ key ∨ 0x3B ∈ value then none
      else (unescape true key).bind fun key => (unescape true value).map (key, ·) := by
  have hcontains : (((key ++ 0x3D :: value).contains 0x3B || (key ++ 0x3D :: value).isEmpty) = true) ↔
      0x3B ∈ key ∨ 0x3B ∈ value := by
    simp
  unfold queryPair
  rw [Url.cut_append heq]
  simp only [hcontains]
  cases unescape true key <;> cases unescape true value <;> rfl

def escapedByte (b : UInt8) : Bool := isUnreserved b || b = 0x25 || b = 0x2B

theorem queryEscape_bytes (s : Bytes) : ∀ b ∈ queryEscape s, escapedByte b = true := by
  have hdigit : ∀ n < 16, escapedByte (Url.upperHex n) = true := by decide
  intro b hb
  obtain ⟨c, -, hb⟩ := mem_flatMap.mp hb
  have hc := c.toNat_lt
  split_ifs at hb with hspace hplain
  · obtain rfl := mem_singleton.mp hb
    rfl
  · obtain rfl := mem_singleton.mp hb
    rw [escapedByte, hplain]
    rfl
  · simp only [Url.percent, mem_cons, not_mem_nil, or_false] at hb
    obtain rfl | rfl | rfl := hb
    · rfl
    · exact hdigit _ (by omega)
    · exact hdigit _ (by omega)

theorem notMem_queryEscape (s : Bytes) {c : UInt8} (hc : escapedByte c = false) :
    c ∉ queryEscape s := by
  intro hmem
  rw [queryEscape_bytes s c hmem] at hc
  cases hc

theorem unescape_percent_byte {query : Bool} (b : UInt8) (rest : Bytes) :
    unescape query (Url.percent b ++ rest) = (unescape query rest).map (b :: ·) := by
  have hlt := b.toNat_lt
  have hdigit : ∀ n < 16, Json.unhex (Url.upperHex n) = some n := by decide
  have hbyte : UInt8.ofNat (b.toNat / 16 * 16 + b.toNat % 16) = b := by
    rw [Nat.div_add_mod']
    exact UInt8.ofNat_toNat
  have hhigh := hdigit (b.toNat / 16) (by omega)
  refine (Url.unescape_percent hhigh (hdigit (b.toNat % 16) (by omega)) rest).trans ?_
  rw [hbyte]

theorem unescape_queryEscape (s : Bytes) : unescape true (queryEscape s) = some s := by
  induction s with
  | nil => rfl
  | cons b s ih =>
    have hstep : queryEscape (b :: s) = (if b = 0x20 then [0x2B] else if isUnreserved b then [b]
        else Url.percent b) ++ queryEscape s := rfl
    rw [hstep]
    split_ifs with hspace hplain
    · rw [singleton_append, unescape_plain (by decide), ih, hspace]
      rfl
    · have hpercent : b ≠ 0x25 := by
        rintro rfl
        cases hplain
      have hplus : b ≠ 0x2B := by
        rintro rfl
        cases hplain
      rw [singleton_append, unescape_plain hpercent, ih]
      simp [hplus]
    · rw [unescape_percent_byte, ih]
      rfl

theorem queryPairs_encodePairs (q : List (Bytes × Bytes)) : queryPairs (encodePairs q) = q := by
  unfold encodePairs
  by_cases hne : q = []
  · rw [hne]
    rfl
  have hread : ∀ x : Bytes × Bytes,
      queryPair (queryEscape x.1 ++ 0x3D :: queryEscape x.2) = some x := by
    intro x
    have hsemicolon (s : Bytes) : 0x3B ∉ queryEscape s := notMem_queryEscape s rfl
    rw [queryPair_eq (notMem_queryEscape x.1 rfl), if_neg (by simp [hsemicolon]),
      unescape_queryEscape, unescape_queryEscape]
    rfl
  rw [queryPairs_joined]
  · rw [filterMap_map]
    exact (filterMap_congr fun x _ => hread x).trans filterMap_some
  · intro pair hpair
    obtain ⟨x, -, rfl⟩ := mem_map.mp hpair
    have hamp (s : Bytes) : 0x26 ∉ queryEscape s := notMem_queryEscape s rfl
    simp [hamp]
  · simp [hne]

def keys (q : List (Bytes × Bytes)) : List Bytes := q.map Prod.fst

variable {q q' : List (Bytes × Bytes)}

theorem sortedKeys_congr (h : ∀ key, key ∈ keys q ↔ key ∈ keys q') :
    sortedKeys q = sortedKeys q' := by
  unfold sortedKeys
  have hperm : (q.map Prod.fst).dedup.Perm (q'.map Prod.fst).dedup := by
    refine (perm_ext_iff_of_nodup (nodup_dedup _) (nodup_dedup _)).mpr fun key => ?_
    rw [mem_dedup, mem_dedup]
    exact h key
  refine List.Perm.eq_of_pairwise' (pairwise_insertionSort _ _)
    (pairwise_insertionSort _ _) ?_
  exact (perm_insertionSort _ _).trans (hperm.trans (perm_insertionSort _ _).symm)

theorem shownPairs_congr (hkeys : ∀ key, key ∈ keys q ↔ key ∈ keys q')
    (hvalues : ∀ key, secretParam key = false →
      (q.filter fun x => x.1 = key) = q'.filter fun x => x.1 = key) :
    shownPairs q = shownPairs q' := by
  unfold shownPairs
  rw [sortedKeys_congr hkeys]
  refine flatMap_congr fun key _ => ?_
  unfold shownValues
  split_ifs with hsecret
  · rfl
  · rw [hvalues key (Bool.eq_false_iff.mpr hsecret)]

theorem mem_keys_shownPairs {key : Bytes} : key ∈ keys (shownPairs q) ↔ key ∈ keys q := by
  constructor
  · intro h
    obtain ⟨x, hx, rfl⟩ := mem_map.mp h
    obtain ⟨key, hkey, hx⟩ := mem_flatMap.mp hx
    obtain ⟨value, -, rfl⟩ := mem_map.mp hx
    exact mem_sortedKeys.mp hkey
  · intro h
    have hvalue : ∃ value, value ∈ shownValues q key := by
      unfold shownValues
      split_ifs
      · exact ⟨mark, mem_singleton_self _⟩
      · obtain ⟨x, hx, rfl⟩ := mem_map.mp h
        exact ⟨x.2, mem_map_of_mem (mem_filter.mpr ⟨hx, decide_eq_true rfl⟩)⟩
    obtain ⟨value, hvalue⟩ := hvalue
    refine mem_map.mpr ⟨(key, value), ?_, rfl⟩
    exact mem_flatMap.mpr ⟨key, mem_sortedKeys.mpr h, mem_map_of_mem hvalue⟩

theorem encodePairs_inj : encodePairs q = encodePairs q' ↔ q = q' := by
  constructor
  · intro h
    rw [← queryPairs_encodePairs q, h, queryPairs_encodePairs]
  · rintro rfl
    rfl

end GolangBasics.Httpx.Redact
