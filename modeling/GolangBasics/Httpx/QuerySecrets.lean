import GolangBasics.Httpx.RedactQuery
import GolangBasics.Httpx.ReplaceDsn

/-! What `redactURL` shows of the value of a secret query parameter. -/
namespace GolangBasics.Httpx.Redact
open List Option
open Strings (joined)
open Url (URL unescape queryPair queryPairs maxQueryParams)

/-- A URL with a query, without the value of one of its pairs, whose key is a secret one. -/
structure SecretPair where
  front : Bytes
  before : List Bytes
  key : Bytes
  name : Bytes
  after : List Bytes
  back : Bytes
  front_plain : 0x3F ∉ front ∧ 0x23 ∉ front
  pairs_plain : ∀ pair ∈ before ++ after, 0x26 ∉ pair ∧ 0x23 ∉ pair
  key_plain : 0x3D ∉ key ∧ 0x26 ∉ key ∧ 0x23 ∉ key
  key_name : unescape true key = some name
  name_secret : secretParam name = true
  back_hash : back = [] ∨ back.head? = some 0x23

def QueryValue (v : Bytes) : Prop := 0x26 ∉ v ∧ 0x23 ∉ v

namespace SecretPair

def pairs (c : SecretPair) (v : Bytes) : List Bytes := c.before ++ (c.key ++ 0x3D :: v) :: c.after

def rawQuery (c : SecretPair) (v : Bytes) : Bytes := joined 0x26 (c.pairs v)

def text (c : SecretPair) (v : Bytes) : Bytes := c.front ++ 0x3F :: c.rawQuery v ++ c.back

def size (c : SecretPair) : Nat := c.before.length + c.after.length + 1

def others (c : SecretPair) : List (Bytes × Bytes) :=
  if maxQueryParams < c.size then [] else (c.before ++ c.after).filterMap queryPair

def Kept (c : SecretPair) (v : Bytes) : Prop :=
  c.size ≤ maxQueryParams ∧ 0x3B ∉ c.key ∧ 0x3B ∉ v ∧ unescape true v ≠ none

variable (c : SecretPair) {v v' : Bytes}

theorem pairs_ne_nil (v : Bytes) : c.pairs v ≠ [] :=
  append_ne_nil_of_right_ne_nil _ (cons_ne_nil _ _)

theorem length_pairs (v : Bytes) : (c.pairs v).length = c.size := by
  simp [pairs, size]
  omega

theorem amp_notMem_pairs (hv : QueryValue v) : ∀ pair ∈ c.pairs v, 0x26 ∉ pair := by
  intro pair hpair
  simp only [pairs, mem_append, mem_cons] at hpair
  obtain h | rfl | h := hpair
  · exact (c.pairs_plain pair (mem_append_left _ h)).1
  · simp [c.key_plain.2.1, hv.1]
  · exact (c.pairs_plain pair (mem_append_right _ h)).1

theorem query_rawQuery (hv : QueryValue v) : Url.query (c.rawQuery v) =
    if maxQueryParams < c.size then [] else (c.pairs v).filterMap queryPair := by
  have hamp := c.amp_notMem_pairs hv
  have hne := c.pairs_ne_nil v
  unfold Url.query rawQuery
  rw [Strings.count_joined hamp hne, length_pairs, queryPairs_joined hamp hne]

theorem queryPair_pair (v : Bytes) : queryPair (c.key ++ 0x3D :: v) =
    if 0x3B ∈ c.key ∨ 0x3B ∈ v then none else (unescape true v).map fun value => (c.name, value) := by
  rw [queryPair_eq c.key_plain.1, c.key_name]
  cases unescape true v <;> rfl

theorem query_dropped (hv : QueryValue v) (h : ¬ c.Kept v) :
    Url.query (c.rawQuery v) = c.others := by
  rw [c.query_rawQuery hv, others]
  split_ifs with hsize
  · rfl
  · have hnone : queryPair (c.key ++ 0x3D :: v) = none := by
      rw [queryPair_pair]
      split_ifs with hsemicolon
      · rfl
      · unfold Kept at h
        have hle := Nat.le_of_not_lt hsize
        have hescape : unescape true v = none := by tauto
        rw [hescape]
        rfl
    rw [pairs, filterMap_append, filterMap_cons_none hnone, filterMap_append]

theorem query_kept (hv : QueryValue v) (h : c.Kept v) : ∃ value,
    Url.query (c.rawQuery v) =
      c.before.filterMap queryPair ++ (c.name, value) :: c.after.filterMap queryPair := by
  obtain ⟨hsize, hkey, hvalue, hescape⟩ := h
  obtain ⟨value, hescape⟩ := Option.ne_none_iff_exists'.mp hescape
  have hsome : queryPair (c.key ++ 0x3D :: v) = some (c.name, value) := by
    rw [queryPair_pair, if_neg (by simp [hkey, hvalue]), hescape]
    rfl
  refine ⟨value, ?_⟩
  rw [c.query_rawQuery hv, if_neg (by omega), pairs, filterMap_append,
    filterMap_cons_some hsome]

/-- The query as it is shown when the pair is decoded: its value is nowhere in it. -/
def shownQuery : Bytes := encodePairs (shownPairs ((c.name, mark) :: c.others))

theorem redactQuery_kept (hv : QueryValue v) (h : c.Kept v) :
    redactQuery (c.rawQuery v) = c.shownQuery := by
  obtain ⟨value, hpairs⟩ := c.query_kept hv h
  have hothers : c.others = c.before.filterMap queryPair ++ c.after.filterMap queryPair := by
    rw [others, if_neg (by have := h.1; omega), filterMap_append]
  unfold redactQuery shownQuery
  rw [hpairs, hothers, if_pos (by simp [c.name_secret])]
  congr 1
  refine shownPairs_congr (fun key => ?_) (fun key hsecret => ?_)
  · simp only [keys, map_append, map_cons, mem_append, mem_cons]
    tauto
  · have hname : ¬ c.name = key := by
      rintro rfl
      rw [c.name_secret] at hsecret
      cases hsecret
    simp [hname]

theorem redactQuery_dropped (hv : QueryValue v) (h : ¬ c.Kept v) : redactQuery (c.rawQuery v) =
    if c.others.any fun x => secretParam x.1 then encodePairs (shownPairs c.others)
    else c.rawQuery v := by
  unfold redactQuery
  rw [c.query_dropped hv h]

/-- A key that the other pairs have, too, is shown with or without the pair. -/
theorem shownQuery_eq_iff :
    c.shownQuery = encodePairs (shownPairs c.others) ↔ c.name ∈ keys c.others := by
  unfold shownQuery
  rw [encodePairs_inj]
  constructor
  · intro h
    rw [← mem_keys_shownPairs, ← h, mem_keys_shownPairs]
    exact mem_cons_self
  · intro h
    refine shownPairs_congr (fun key => ?_) (fun key hsecret => ?_)
    · have hcons : keys ((c.name, mark) :: c.others) = c.name :: keys c.others := rfl
      rw [hcons, mem_cons, or_iff_right_of_imp]
      rintro rfl
      exact h
    · have hname : ¬ c.name = key := by
        rintro rfl
        rw [c.name_secret] at hsecret
        cases hsecret
      simp [hname]

theorem rawQuery_eq (v : Bytes) : c.rawQuery v =
    c.before.flatMap (· ++ [0x26]) ++ c.key ++ 0x3D :: (v ++ c.after.flatMap (0x26 :: ·)) := by
  unfold rawQuery pairs
  rw [Strings.joined_around]
  simp

theorem rawQuery_inj : c.rawQuery v = c.rawQuery v' ↔ v = v' := by
  rw [c.rawQuery_eq, c.rawQuery_eq]
  simp

theorem secret_of_mem (h : c.name ∈ keys c.others) :
    (c.others.any fun x => secretParam x.1) = true := by
  obtain ⟨x, hx, hname⟩ := List.mem_map.mp h
  exact List.any_eq_true.mpr ⟨x, hx, hname ▸ c.name_secret⟩

/-- A query that was left as it is has no secret key, other than one that was written anew. -/
theorem shownQuery_ne_rawQuery (hv : QueryValue v) (h : ¬ c.Kept v) (hsize : c.size ≤ maxQueryParams)
    (hsecret : ¬ (c.others.any fun x => secretParam x.1) = true) :
    c.shownQuery ≠ c.rawQuery v := by
  intro heq
  have hpairs : queryPairs (c.rawQuery v) = c.others := by
    have hcount := Strings.count_joined (c.amp_notMem_pairs hv) (c.pairs_ne_nil v)
    rw [← c.query_dropped hv h, Url.query, if_neg]
    rw [rawQuery, hcount, length_pairs]
    omega
  rw [← heq, shownQuery, queryPairs_encodePairs] at hpairs
  refine hsecret (c.secret_of_mem ?_)
  rw [← hpairs, mem_keys_shownPairs]
  exact mem_cons_self

/-- Two values cannot be told apart: they are the same, the key is masked in another pair, too, or
the decoder does the same with both and rewrites the query. -/
def Alike (v v' : Bytes) : Prop :=
  v = v' ∨ c.name ∈ keys c.others ∨
    (c.Kept v ↔ c.Kept v') ∧ (c.Kept v ∨ ∃ x ∈ c.others, secretParam x.1 = true)

theorem redactQuery_eq_iff (hv : QueryValue v) (hv' : QueryValue v') :
    redactQuery (c.rawQuery v) = redactQuery (c.rawQuery v') ↔ c.Alike v v' := by
  have hsecret : (c.others.any fun x => secretParam x.1) = true ↔
      ∃ x ∈ c.others, secretParam x.1 = true := List.any_eq_true
  have hname := c.secret_of_mem
  unfold Alike
  rw [← hsecret]
  by_cases h : c.Kept v
  · rw [c.redactQuery_kept hv h]
    by_cases h' : c.Kept v'
    · rw [c.redactQuery_kept hv' h']
      simp [h, h']
    · have hne : v ≠ v' := fun heq => h' (heq ▸ h)
      rw [c.redactQuery_dropped hv' h']
      split_ifs with hany
      · rw [c.shownQuery_eq_iff]
        simp [h, h', hne]
      · have hshown := c.shownQuery_ne_rawQuery hv' h' h.1 hany
        simp [h, h', hne, hshown, mt hname hany]
  · by_cases h' : c.Kept v'
    · have hne : v ≠ v' := fun heq => h (heq ▸ h')
      rw [c.redactQuery_kept hv' h', c.redactQuery_dropped hv h]
      split_ifs with hany
      · rw [eq_comm, c.shownQuery_eq_iff]
        simp [h, h', hne]
      · have hshown := (c.shownQuery_ne_rawQuery hv h h'.1 hany).symm
        simp [h, h', hne, hshown, mt hname hany]
    · rw [c.redactQuery_dropped hv h, c.redactQuery_dropped hv' h']
      split_ifs with hany
      · simp [h, h', hany]
      · simp [h, hany, c.rawQuery_inj, mt hname hany]

theorem hash_notMem_rawQuery (hv : QueryValue v) : 0x23 ∉ c.rawQuery v := by
  intro hmem
  obtain h | ⟨pair, hpair, hmem⟩ := Strings.mem_joined hmem
  · cases h
  · simp only [pairs, mem_append, mem_cons] at hpair
    obtain h | rfl | h := hpair
    · exact (c.pairs_plain pair (mem_append_left _ h)).2 hmem
    · simp [c.key_plain.2.2, hv.2] at hmem
    · exact (c.pairs_plain pair (mem_append_right _ h)).2 hmem

def base : Option URL := do
  let u ← Url.parseFront c.front
  let u : URL := { u with forceQuery := false }
  if c.back.drop 1 = [] then some u else u.setFragment (c.back.drop 1)

theorem rawQuery_ne_nil (v : Bytes) : c.rawQuery v ≠ [] := by
  rw [c.rawQuery_eq]
  exact append_ne_nil_of_right_ne_nil _ (cons_ne_nil _ _)

theorem parse_text (hv : QueryValue v) : Url.parse (c.text v) =
    if Url.containsCTL (c.front ++ 0x3F :: c.rawQuery v) then none
    else c.base.map fun u => { u with rawQuery := c.rawQuery v } := by
  have hhash : 0x23 ∉ c.front ++ 0x3F :: c.rawQuery v := by
    simp [c.front_plain.2, c.hash_notMem_rawQuery hv]
  have hcut : Url.cut 0x23 (c.text v) = (c.front ++ 0x3F :: c.rawQuery v, c.back.drop 1) := by
    unfold text
    cases hback : c.back with
    | nil => rw [append_nil, Url.cut_of_notMem hhash, drop_nil]
    | cons b frag =>
      obtain rfl : b = 0x23 := by simpa [hback] using c.back_hash
      rw [Url.cut_append hhash]
      rfl
  unfold Url.parse base
  rw [hcut]
  dsimp only
  rw [Url.parseWhole_query c.front_plain.1 (c.rawQuery_ne_nil v)]
  by_cases hctl : Url.containsCTL (c.front ++ 0x3F :: c.rawQuery v) = true
  · rw [if_pos hctl, if_pos hctl]
    rfl
  · rw [if_neg hctl, if_neg hctl]
    cases Url.parseFront c.front with
    | none => rfl
    | some u =>
      simp only [map_some, bind_eq_bind, bind_some]
      split_ifs
      · rfl
      · unfold URL.setFragment
        cases unescape false (c.back.drop 1) <;> rfl

theorem redactURL_text (hv : QueryValue v) (hurl : utf8 "://" <:+: c.text v)
    (hparse : Url.parse (c.text v) ≠ none) : ∃ u, c.base = some u ∧
      redactURL (c.text v) = ({ u with user := u.user.map maskUser } : URL).front ++
        0x3F :: redactQuery (c.rawQuery v) ++
        (if u.fragment ≠ [] then 0x23 :: u.escapedFragment else []) := by
  obtain ⟨w, hw⟩ := Option.ne_none_iff_exists'.mp hparse
  rw [redactURL_parsed hurl hw]
  rw [c.parse_text hv] at hw
  split_ifs at hw
  obtain ⟨u, hu, rfl⟩ := map_eq_some_iff.mp hw
  refine ⟨u, hu, ?_⟩
  rw [if_pos (.inr (c.rawQuery_ne_nil v))]
  exact Url.string_query { u with user := u.user.map maskUser } (redactQuery_ne_nil (c.rawQuery_ne_nil v))

/-- The value is shown in the query only. -/
theorem redactURL_eq_iff (hv : QueryValue v) (hurl : utf8 "://" <:+: c.text v)
    (hparse : Url.parse (c.text v) ≠ none) (hv' : QueryValue v') (hurl' : utf8 "://" <:+: c.text v')
    (hparse' : Url.parse (c.text v') ≠ none) :
    redactURL (c.text v) = redactURL (c.text v') ↔ c.Alike v v' := by
  obtain ⟨u, hu, hshown⟩ := c.redactURL_text hv hurl hparse
  obtain ⟨u', hu', hshown'⟩ := c.redactURL_text hv' hurl' hparse'
  obtain rfl : u = u' := some.inj (hu.symm.trans hu')
  rw [hshown, hshown', ← c.redactQuery_eq_iff hv hv', append_left_inj, append_right_inj,
    cons_inj_right]

def left : Bytes := c.front ++ 0x3F :: (c.before.flatMap (· ++ [0x26]) ++ c.key)

def right : Bytes := c.after.flatMap (0x26 :: ·) ++ c.back

theorem text_eq (v : Bytes) : c.text v = c.left ++ 0x3D :: (v ++ c.right) := by
  unfold text left right
  rw [c.rawQuery_eq]
  simp

theorem right_cases : c.right = [] ∨ ∃ sep rest, sep ∉ utf8 "://" ∧ c.right = sep :: rest := by
  unfold right
  cases c.after with
  | nil =>
    cases hback : c.back with
    | nil => exact .inl rfl
    | cons b rest =>
      obtain rfl : b = 0x23 := by simpa [hback] using c.back_hash
      exact .inr ⟨0x23, rest, by decide, rfl⟩
  | cons pair after => exact .inr ⟨0x26, _, by decide, rfl⟩

theorem url_text_iff (v : Bytes) :
    utf8 "://" <:+: c.text v ↔ utf8 "://" <:+: c.text [] ∨ utf8 "://" <:+: v := by
  have hne : utf8 "://" ≠ [] := cons_ne_nil _ _
  have hequals : 0x3D ∉ utf8 "://" := by decide
  have hright (v : Bytes) : utf8 "://" <:+: v ++ c.right ↔
      utf8 "://" <:+: v ∨ utf8 "://" <:+: c.right := by
    obtain h | ⟨sep, rest, hsep, h⟩ := c.right_cases
    · rw [h, append_nil, infix_nil, or_iff_left hne]
    · have hrest := Strings.infix_append_sep (a := []) (b := rest) hsep hne
      rw [nil_append, infix_nil, or_iff_right hne] at hrest
      rw [h, Strings.infix_append_sep hsep hne, hrest]
  rw [c.text_eq, c.text_eq, Strings.infix_append_sep hequals hne,
    Strings.infix_append_sep hequals hne, hright, nil_append]
  tauto

theorem containsCTL_rawQuery (v : Bytes) : Url.containsCTL (c.front ++ 0x3F :: c.rawQuery v) =
    (Url.containsCTL (c.front ++ 0x3F :: c.rawQuery []) || Url.containsCTL v) := by
  rw [c.rawQuery_eq, c.rawQuery_eq]
  unfold Url.containsCTL
  simp only [any_append, any_cons, any_nil]
  generalize v.any _ = x
  cases x <;> simp

theorem parse_text_ne_none (hv : QueryValue v) (hv' : QueryValue v')
    (hctl : Url.containsCTL v' = false) (hparse : Url.parse (c.text v) ≠ none) :
    Url.parse (c.text v') ≠ none := by
  rw [c.parse_text hv, c.containsCTL_rawQuery] at hparse
  rw [c.parse_text hv', c.containsCTL_rawQuery, hctl, Bool.or_false]
  split_ifs at hparse with h
  · exact absurd rfl hparse
  · rw [Bool.or_eq_true, not_or] at h
    rw [if_neg h.1]
    simpa using hparse

/-- Where only the value made the text a URL, another one does not even go to the query. -/
theorem exists_shown (hv : QueryValue v) (hparse : Url.parse (c.text v) ≠ none)
    (hurl : ¬ utf8 "://" <:+: c.text []) : ∃ v', QueryValue v' ∧ Url.parse (c.text v') ≠ none ∧
      redactURL (c.text v') ≠ redactURL (c.text v) := by
  have hdots (n : Nat) {b : UInt8} (hb : b ∉ [0x27, 0x20, 0x2E]) :
      b ∉ 0x27 :: 0x27 :: 0x20 :: List.replicate n 0x2E := by
    simp only [mem_cons, not_mem_nil, or_false, not_or] at hb
    simp only [mem_cons, mem_replicate]
    tauto
  generalize hn : (redactURL (c.text v)).length + 1 = n
  have hv' : QueryValue (0x27 :: 0x27 :: 0x20 :: List.replicate n 0x2E) :=
    ⟨hdots n (by decide), hdots n (by decide)⟩
  refine ⟨_, hv', c.parse_text_ne_none hv hv' ?_ hparse, fun heq => ?_⟩
  · simp [Url.containsCTL, any_replicate]
  · have hplain : ¬ utf8 "://" <:+: c.text (0x27 :: 0x27 :: 0x20 :: List.replicate n 0x2E) := by
      rw [c.url_text_iff, not_or]
      refine ⟨hurl, fun h => ?_⟩
      exact hdots n (by decide) (h.subset (mem_cons_self : 0x3A ∈ utf8 "://"))
    have hequals : 0x3D ∈ c.text (0x27 :: 0x27 :: 0x20 :: List.replicate n 0x2E) := by
      rw [c.text_eq]
      simp
    have hlen := length_replaceDsn c.left c.right n
    rw [redactURL, if_neg hplain, if_pos hequals] at heq
    have htext : c.text (0x27 :: 0x27 :: 0x20 :: List.replicate n 0x2E) =
        c.left ++ [0x3D, 0x27, 0x27] ++ 0x20 :: (List.replicate n 0x2E ++ c.right) := by
      rw [c.text_eq]
      simp
    rw [← htext, heq] at hlen
    omega

end SecretPair

/-- Every pair of a parsed URL with a secret key is one. -/
theorem exists_secretPair {s : Bytes} {u : URL} (hparse : Url.parse s = some u)
    {before after : List Bytes} {key name v : Bytes}
    (hpairs : u.rawQuery.splitOn 0x26 = before ++ (key ++ 0x3D :: v) :: after) (hkey : 0x3D ∉ key)
    (hname : unescape true key = some name) (hsecret : secretParam name = true) :
    ∃ c : SecretPair, c.text v = s ∧ c.before = before ∧ c.key = key ∧ c.after = after ∧
      QueryValue v := by
  have hjoined : joined 0x26 (before ++ (key ++ 0x3D :: v) :: after) = u.rawQuery := by
    rw [← hpairs, joined, intercalate_splitOn]
  have hne : u.rawQuery ≠ [] := by
    rw [← hjoined, Strings.joined_around]
    simp
  obtain ⟨front, back, rfl, hfront, hhash, hback⟩ := Url.parse_rawQuery hparse hne
  rw [← hjoined] at hhash
  have hamp : ∀ pair ∈ before ++ (key ++ 0x3D :: v) :: after, 0x26 ∉ pair := by
    rw [← hpairs]
    exact Strings.sep_notMem_splitOn 0x26 u.rawQuery
  have hplain : ∀ pair ∈ before ++ (key ++ 0x3D :: v) :: after, 0x23 ∉ pair := by
    intro pair hpair hmem
    exact hhash (mem_append_right _ (mem_cons_of_mem _ (Strings.subset_joined hpair hmem)))
  have hpair := hamp (key ++ 0x3D :: v) (by simp)
  have hpair' := hplain (key ++ 0x3D :: v) (by simp)
  simp only [mem_append, mem_cons, not_or] at hpair hpair' hhash
  refine ⟨⟨front, before, key, name, after, back, ⟨hfront, hhash.1⟩, fun pair h => ?_,
    ⟨hkey, hpair.1, hpair'.1⟩, hname, hsecret, hback⟩, ?_, rfl, rfl, rfl, hpair.2.2, hpair'.2.2⟩
  · have hmem : pair ∈ before ++ (key ++ 0x3D :: v) :: after := by
      simp only [mem_append, mem_cons] at h ⊢
      tauto
    exact ⟨hamp pair hmem, hplain pair hmem⟩
  · rw [← hjoined]
    rfl

/-- Where the text is a URL whatever the value is, two values are shown alike exactly if they
cannot be told apart in the query. Elsewhere every value has another that is not. -/
theorem redactURL_query_iff (c : SecretPair) {v : Bytes} (hv : QueryValue v)
    (hurl : utf8 "://" <:+: c.text v) (hparse : Url.parse (c.text v) ≠ none) :
    (utf8 "://" <:+: c.text [] → ∀ v', QueryValue v' → Url.parse (c.text v') ≠ none →
      (redactURL (c.text v') = redactURL (c.text v) ↔ c.Alike v' v)) ∧
    (¬ utf8 "://" <:+: c.text [] → ∃ v', QueryValue v' ∧ Url.parse (c.text v') ≠ none ∧
      redactURL (c.text v') ≠ redactURL (c.text v)) := by
  refine ⟨fun hempty v' hv' hparse' => ?_, c.exists_shown hv hparse⟩
  exact c.redactURL_eq_iff hv' ((c.url_text_iff v').mpr (.inl hempty)) hparse' hv hurl hparse

def tokenPair : SecretPair where
  front := utf8 "https://h/"
  before := []
  key := utf8 "token"
  name := utf8 "token"
  after := []
  back := []
  front_plain := by decide
  pairs_plain := fun _ h => absurd h not_mem_nil
  key_plain := by decide
  key_name := rfl
  name_secret := by decide +kernel
  back_hash := .inl rfl

theorem redactURL_query_token : QueryValue (utf8 "abc") ∧ utf8 "://" <:+: tokenPair.text (utf8 "abc") ∧
    Url.parse (tokenPair.text (utf8 "abc")) ≠ none ∧ ∀ v', QueryValue v' →
      Url.parse (tokenPair.text v') ≠ none →
      (redactURL (tokenPair.text v') = redactURL (tokenPair.text (utf8 "abc")) ↔
        tokenPair.Alike v' (utf8 "abc")) := by
  have hv : QueryValue (utf8 "abc") := by unfold QueryValue; decide
  have hurl : utf8 "://" <:+: tokenPair.text (utf8 "abc") := by decide +kernel
  have hparse : Url.parse (tokenPair.text (utf8 "abc")) ≠ none := by decide +kernel
  exact ⟨hv, hurl, hparse, (redactURL_query_iff tokenPair hv hurl hparse).1 (by decide +kernel)⟩

/-- A pair that the decoder drops is shown as it stands. -/
theorem token_shown : redactURL (tokenPair.text (utf8 "abc")) = utf8 "https://h/?token=%5Bredacted%5D" ∧
    redactURL (tokenPair.text (utf8 "a;b")) = utf8 "https://h/?token=a;b" ∧
    redactURL (tokenPair.text (utf8 "50%")) = utf8 "https://h/?token=50%" := by
  decide +kernel

end GolangBasics.Httpx.Redact
