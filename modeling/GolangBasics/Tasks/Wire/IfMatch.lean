import GolangBasics.Tasks.Store.Tables
import GolangBasics.Tasks.Wire.Requests

/-! The entity tags a task is given, and the ones `If-Match` takes for them. -/
namespace GolangBasics.Tasks.Wire
open List
open Json (isDigit)

def etag (version : Int) : Bytes := utf8 ("\"" ++ toString version ++ "\"")

def Request.tag (r : Request) : Bytes := trimSpace ((r.header "If-Match").headD [])

def Passes (r : Request) (t : Task) : Prop :=
  ∃ expect, ifMatch r = .ok expect ∧ Store.expected expect t = true

/-- A version in quotes that begins with a plus sign or with a zero. The contract's pattern,
`"[1-9][0-9]*"`, has no such tag. -/
def Padded (tag : Bytes) : Prop :=
  ∃ c ds, tag = 0x22 :: c :: (ds ++ [0x22]) ∧ (c = 0x2B ∨ c = 0x30) ∧
    (∀ d ∈ ds, isDigit d = true) ∧ (∃ d ∈ ds, d ≠ 0x30) ∧ tag.length ≤ maxIfMatchLength

def chars (s : Bytes) : List Char := s.map fun b => Char.ofNat b.toNat

theorem toNat_char {n : Nat} (h : n < 256) : (Char.ofNat n).toNat = n := by
  have hvalid : n.isValidChar := .inl (by omega)
  unfold Char.ofNat
  rw [dif_pos hvalid]
  rfl

theorem ascii_char {n : Nat} (h : n < 128) :
    String.utf8EncodeChar (Char.ofNat n) = [UInt8.ofNat n] := by
  have hnat : (Char.ofNat n).val.toNat = n := toNat_char (by omega)
  have hsize : (Char.ofNat n).utf8Size = 1 := by
    rw [Char.utf8Size_eq_one_iff, UInt32.le_iff_toNat_le, hnat]
    exact Nat.le_of_lt_succ h
  have hbyte : (Char.ofNat n).val.toUInt8 = UInt8.ofNat n := by
    rw [← UInt8.ofNat_uInt32ToNat, hnat]
  rw [String.utf8EncodeChar_eq_singleton hsize, hbyte]

theorem chars_flatMap {cs : List Char} (h : ∀ c ∈ cs, c.isDigit = true) :
    chars (cs.flatMap String.utf8EncodeChar) = cs := by
  induction cs with
  | nil => rfl
  | cons c cs ih =>
    have hc := (Char.isDigit_iff_toNat.mp (h c mem_cons_self)).2
    have hlt : c.toNat < 128 := Nat.lt_of_le_of_lt hc (by decide)
    have hbyte := ascii_char hlt
    rw [Char.ofNat_toNat] at hbyte
    have hnat : (UInt8.ofNat c.toNat).toNat = c.toNat := by
      rw [UInt8.toNat_ofNat', Nat.mod_eq_of_lt (by omega)]
    rw [flatMap_cons, hbyte]
    calc chars ([UInt8.ofNat c.toNat] ++ cs.flatMap String.utf8EncodeChar)
        = Char.ofNat (UInt8.ofNat c.toNat).toNat :: chars (cs.flatMap String.utf8EncodeChar) := rfl
      _ = c :: cs := by
        rw [hnat, Char.ofNat_toNat, ih fun d hd => h d (mem_cons_of_mem c hd)]

theorem isDigit_char (b : UInt8) : (Char.ofNat b.toNat).isDigit = isDigit b := by
  rw [Bool.eq_iff_iff, Char.isDigit_iff_toNat, toNat_char b.toNat_lt]
  unfold isDigit
  rw [Bool.and_eq_true, decide_eq_true_iff, decide_eq_true_iff, UInt8.le_iff_toNat_le,
    UInt8.le_iff_toNat_le]
  rfl

theorem char_eq {b c : UInt8} (h : Char.ofNat b.toNat = Char.ofNat c.toNat) : b = c := by
  have hnat := congrArg Char.toNat h
  rw [toNat_char b.toNat_lt, toNat_char c.toNat_lt] at hnat
  exact UInt8.toNat_inj.mp hnat

theorem chars_inj {s s' : Bytes} (h : chars s = chars s') : s = s' :=
  List.map_inj_right (fun _ _ => char_eq) |>.mp h

theorem etag_eq (n : Nat) :
    ∃ inner, etag n = 0x22 :: (inner ++ [0x22]) ∧ chars inner = Nat.toDigits 10 n := by
  refine ⟨(Nat.toDigits 10 n).flatMap String.utf8EncodeChar, ?_, chars_flatMap fun c hc =>
    Nat.isDigit_of_mem_toDigits (by decide) (by decide) hc⟩
  have hstring : toString (n : Int) = Nat.repr n := rfl
  have hlist : ("\"" ++ toString (n : Int) ++ "\"").toList = '"' :: (Nat.toDigits 10 n ++ ['"']) := by
    rw [hstring, String.toList_append, String.toList_append, Nat.toList_repr]
    rfl
  unfold etag utf8
  rw [hlist, flatMap_cons, flatMap_append]
  rfl

theorem quoted_iff {raw : Bytes} :
    (3 ≤ raw.length ∧ raw.head? = some 0x22 ∧ raw.getLast? = some 0x22) ↔
      ∃ inner, raw = 0x22 :: (inner ++ [0x22]) ∧ inner ≠ [] := by
  constructor
  · intro ⟨hlen, hhead, hlast⟩
    obtain ⟨rest, rfl⟩ := List.head?_eq_some_iff.mp hhead
    have hrest : rest ≠ [] := fun h => by simp [h] at hlen
    rw [List.getLast?_cons_of_ne_nil hrest] at hlast
    obtain ⟨inner, rfl⟩ := List.getLast?_eq_some_iff.mp hlast
    exact ⟨inner, rfl, fun h => by simp [h] at hlen⟩
  · intro ⟨inner, hraw, hne⟩
    have hpos := length_pos_of_ne_nil hne
    refine ⟨?_, by rw [hraw]; rfl, ?_⟩
    · rw [hraw, length_cons, length_append, length_singleton]
      omega
    · rw [hraw, ← cons_append, List.getLast?_concat]

variable {r : Request}

theorem ifMatch_some {v : Int} : ifMatch r = .ok (some v) ↔
      r.header "If-Match" ≠ [] ∧ ∃ inner, r.tag = 0x22 :: (inner ++ [0x22]) ∧ inner ≠ [] ∧
        r.tag.length ≤ maxIfMatchLength ∧ parseInt inner = .ok v ∧ 1 ≤ v := by
  have hinner (inner : Bytes) : ((0x22 :: (inner ++ [0x22]) : Bytes).drop 1).dropLast = inner :=
    dropLast_concat
  have hraw : trimSpace ((r.header "If-Match").headD []) = r.tag := rfl
  unfold ifMatch
  dsimp only
  rw [hraw]
  constructor
  · intro h
    split at h
    · cases h
    · rename_i hsent
      split at h
      · cases h
      · rename_i hquoted
        obtain ⟨hlow, hhigh, hhead, hlast⟩ : 3 ≤ r.tag.length ∧ r.tag.length ≤ maxIfMatchLength ∧
            r.tag.head? = some 0x22 ∧ r.tag.getLast? = some 0x22 := by
          simpa only [not_or, Nat.not_lt, ne_eq, Decidable.not_not] using hquoted
        obtain ⟨inner, htag, hne⟩ := quoted_iff.mp ⟨hlow, hhead, hlast⟩
        rw [htag, hinner] at h
        refine ⟨fun h => hsent (.inl h), inner, htag, hne, hhigh, ?_⟩
        split at h
        · rename_i w hw
          split at h
          · cases h
          · cases h
            exact ⟨hw, by omega⟩
        · cases h
  · intro ⟨hsent, inner, htag, hne, hhigh, hparse, hv⟩
    obtain ⟨hlow, hhead, hlast⟩ := quoted_iff.mpr ⟨inner, htag, hne⟩
    have hstar : r.tag ≠ utf8 "*" := by
      intro h
      rw [h] at hlow
      exact absurd hlow (by decide)
    rw [if_neg (not_or.mpr ⟨hsent, hstar⟩), if_neg (by simp [hlow, hhigh, hhead, hlast]), htag,
      hinner, hparse]
    exact if_neg (by omega)

theorem parseInt_eq (s : Bytes) : parseInt s = GolangBasics.parseInt (String.ofList (chars s)) :=
  rfl

theorem ifMatch_etag {n : Nat} (hpos : 1 ≤ n) (hn : n < 10 ^ 18) (hsent : r.header "If-Match" ≠ [])
    (htag : r.tag = etag n) : ifMatch r = .ok (some n) := by
  obtain ⟨inner, hetag, hchars⟩ := etag_eq n
  have hlength : inner.length ≤ 18 := by
    have hle := (Nat.length_toDigits_le_iff (b := 10) (n := n) (k := 18) (by decide) (by decide)).mpr hn
    rwa [← hchars, chars, length_map] at hle
  refine ifMatch_some.mpr ⟨hsent, inner, htag.trans hetag, ?_, ?_, ?_, by omega⟩
  · intro h
    rw [h] at hchars
    exact Nat.toDigits_ne_nil hchars.symm
  · rw [htag, hetag, length_cons, length_append, length_singleton]
    exact Nat.add_le_add_right (Nat.add_le_add_right hlength 1) 1
  · rw [parseInt_eq, hchars]
    exact parseInt_toString (n := n) (by omega) (by omega)

theorem isDigit_of_digits {s : Bytes} {n : Nat} (h : digits (chars s) = some n) :
    ∀ b ∈ s, isDigit b = true := by
  intro b hb
  rw [← isDigit_char]
  exact (digits_eq_some.mp h).2.1 _ (mem_map_of_mem hb)

theorem chars_pos_iff {s : Bytes} {n : Nat} (h : digits (chars s) = some n) :
    0 < n ↔ ∃ b ∈ s, b ≠ 0x30 := by
  rw [digits_pos_iff h]
  constructor
  · intro ⟨c, hc, hne⟩
    obtain ⟨b, hb, rfl⟩ := mem_map.mp hc
    exact ⟨b, hb, fun heq => hne (heq ▸ rfl)⟩
  · intro ⟨b, hb, hne⟩
    exact ⟨Char.ofNat b.toNat, mem_map_of_mem hb, fun heq => hne (char_eq (c := 0x30) heq)⟩

/-- Any other tag with a version in it is a padded one. -/
theorem etag_or_padded {v : Int} (h : ifMatch r = .ok (some v)) :
    r.tag = etag v ∨ Padded r.tag := by
  obtain ⟨-, inner, htag, hne, hlen, hparse, hv⟩ := ifMatch_some.mp h
  obtain ⟨n, rfl, ⟨cs, hplus, hdigits⟩ | hdigits⟩ := parseInt_pos hparse hv
  · rw [String.toList_ofList] at hplus
    obtain ⟨b, ds, rfl, hb, rfl⟩ := map_eq_cons_iff.mp hplus
    have hb : b = 0x2B := char_eq hb
    exact .inr ⟨b, ds, htag, .inl hb, isDigit_of_digits hdigits,
      (chars_pos_iff hdigits).mp (by omega), hlen⟩
  · rw [String.toList_ofList] at hdigits
    obtain ⟨b, ds, rfl⟩ := exists_cons_of_ne_nil hne
    by_cases hb : b = 0x30
    · obtain ⟨d, hd, hdne⟩ := (chars_pos_iff hdigits).mp (by omega)
      have hd : d ∈ ds := (mem_cons.mp hd).resolve_left fun heq => hdne (heq.trans hb)
      exact .inr ⟨b, ds, htag, .inr hb,
        fun d hd => isDigit_of_digits hdigits d (mem_cons_of_mem b hd), ⟨d, hd, hdne⟩, hlen⟩
    · obtain ⟨digits, hetag, hchars⟩ := etag_eq n
      have hprinted := toDigits_of_digits (fun heq => hb (char_eq (c := 0x30) heq)) hdigits
      have hsame : b :: ds = digits := chars_inj (hprinted.symm.trans hchars.symm)
      exact .inl (by rw [htag, hetag, hsame])

/-- A sent padded tag is taken for a version that has another tag. -/
theorem padded_version (h : Padded r.tag) :
    ∃ n : Nat, 1 ≤ n ∧ n < 10 ^ 18 ∧ ifMatch r = .ok (some n) ∧ r.tag ≠ etag n := by
  obtain ⟨c, ds, htag, hc, hdigits, hnonzero, hlen⟩ := h
  have hsent : r.header "If-Match" ≠ [] := by
    intro hempty
    have hnil : r.tag = [] := by
      unfold Request.tag
      rw [hempty]
      rfl
    exact cons_ne_nil _ _ (htag.symm.trans hnil)
  have hne : chars ds ≠ [] := by
    obtain ⟨d, hd, -⟩ := hnonzero
    exact fun heq => ne_nil_of_mem hd (map_eq_nil_iff.mp heq)
  have hlength : ds.length ≤ 17 := by
    rw [htag, length_cons, length_cons, length_append] at hlen
    exact Nat.le_of_succ_le_succ (Nat.le_of_succ_le_succ (Nat.le_of_succ_le_succ hlen))
  obtain ⟨n, hn⟩ : ∃ n, digits (chars ds) = some n :=
    ⟨_, digits_eq_some.mpr ⟨hne, fun c hc => by
      obtain ⟨b, hb, rfl⟩ := mem_map.mp hc
      exact (isDigit_char b).trans (hdigits b hb), rfl⟩⟩
  have hpos : 0 < n := (chars_pos_iff hn).mpr hnonzero
  have hprinted : (Nat.toDigits 10 n).length ≤ ds.length := by
    have hle := length_toDigits_le hn
    rwa [chars, length_map] at hle
  have hlt : n < 10 ^ 17 :=
    (Nat.length_toDigits_le_iff (b := 10) (by decide) (by decide)).mp (hprinted.trans hlength)
  refine ⟨n, hpos, by omega, ifMatch_some.mpr ⟨hsent, c :: ds, htag, cons_ne_nil c ds, hlen,
    ?_, by omega⟩, ?_⟩
  · have hunsigned : parseInt.unsigned (chars ds) = .ok (n : Int) := by
      unfold parseInt.unsigned
      rw [hn]
      exact if_pos (by omega)
    obtain rfl | rfl := hc
    · rw [parseInt_eq]
      unfold GolangBasics.parseInt
      rw [String.toList_ofList]
      exact hunsigned
    · have hfirst : (String.ofList (chars (0x30 :: ds))).toList = '0' :: chars ds :=
        String.toList_ofList
      rw [parseInt_eq, parseInt_unsigned hfirst rfl, parseInt.unsigned,
        digits_zero_cons hne]
      exact hunsigned
  · -- the tag of `n` is shorter
    intro heq
    obtain ⟨inner, hetag, hchars⟩ := etag_eq n
    have hsame : c :: (ds ++ [0x22]) = inner ++ [0x22] :=
      (List.cons.inj ((htag.symm.trans heq).trans hetag)).2
    have hinner : c :: ds = inner := append_cancel_right hsame
    rw [← hchars, ← hinner, chars, length_map, length_cons] at hprinted
    omega

/-- A value that is no version is refused by both handlers. -/
theorem ifMatch_error {err : String} (h : ifMatch r = .error err) (id : Bytes) :
    update id r = .error (badRequest "invalid_if_match") ∧
      delete id r = .error (badRequest "invalid_if_match") := by
  unfold update delete
  rw [h]
  exact ⟨rfl, rfl⟩

theorem ifMatch_none : ifMatch r = .ok none ↔ r.header "If-Match" = [] ∨ r.tag = utf8 "*" := by
  constructor
  · intro h
    by_contra hsent
    have hraw : trimSpace ((r.header "If-Match").headD []) = r.tag := rfl
    unfold ifMatch at h
    dsimp only at h
    rw [hraw, if_neg hsent] at h
    split at h
    · cases h
    · split at h
      · split at h <;> cases h
      · cases h
  · intro h
    exact if_pos h

theorem passes_iff {t : Task} :
    Passes r t ↔ ifMatch r = .ok none ∨ ifMatch r = .ok (some t.version) := by
  constructor
  · intro ⟨expect, hexpect, ht⟩
    cases expect with
    | none => exact .inl hexpect
    | some v =>
      have hv : t.version = v := of_decide_eq_true ht
      exact .inr (hv ▸ hexpect)
  · intro h
    obtain h | h := h
    · exact ⟨none, h, rfl⟩
    · exact ⟨some t.version, h, decide_eq_true rfl⟩

/-- `If-Match` means the entity tag exactly where it is not padded, and what does not pass is
refused or a mismatch. -/
theorem ifMatch_means_etag (r : Request) :
    ((∀ t : Task, 1 ≤ t.version → t.version < 10 ^ 18 →
        (Passes r t ↔
          r.header "If-Match" = [] ∨ r.tag = utf8 "*" ∨ r.tag = etag t.version)) ↔
      ¬ Padded r.tag) ∧
    (∀ (id : Bytes) (t : Task), ¬ Passes r t →
      (update id r = .error (badRequest "invalid_if_match") ∧
        delete id r = .error (badRequest "invalid_if_match")) ∨
      ∃ v, ifMatch r = .ok (some v) ∧ v ≠ t.version) ∧
    (¬ Padded r.tag → ∀ r' : Request, ¬ Padded r'.tag → ∀ v, ifMatch r = .ok (some v) →
      ifMatch r' = .ok (some v) → r.tag = r'.tag) := by
  refine ⟨⟨fun h hpadded => ?_, fun hplain t hlow hhigh => ?_⟩, fun id t h => ?_,
    fun hplain r' hplain' v hv hv' => ?_⟩
  · obtain ⟨n, hlow, hhigh, hn, hne⟩ := padded_version hpadded
    have hlow' : (1 : Int) ≤ n := by omega
    have hhigh' : (n : Int) < 10 ^ 18 := by omega
    have ht := (h ⟨"", "", false, n, 0⟩ hlow' hhigh').mp (passes_iff.mpr (.inr hn))
    rw [← or_assoc, ← ifMatch_none, hn] at ht
    exact hne (ht.resolve_left nofun)
  · rw [passes_iff, ← or_assoc, ← ifMatch_none]
    refine or_congr_right' fun hsent => ⟨fun hv => ?_, fun htag => ?_⟩
    · exact (etag_or_padded hv).resolve_right hplain
    · obtain ⟨n, hn⟩ := Int.eq_ofNat_of_zero_le (Int.le_trans (by decide) hlow)
      rw [hn] at hlow hhigh htag ⊢
      exact ifMatch_etag (by omega) (by omega) (fun h => hsent (ifMatch_none.mpr (.inl h))) htag
  · cases hm : ifMatch r with
    | error err => exact .inl (ifMatch_error hm id)
    | ok expect =>
      rw [passes_iff, hm] at h
      cases expect with
      | none => exact absurd (.inl rfl) h
      | some v => exact .inr ⟨v, rfl, fun hv => h (.inr (hv ▸ rfl))⟩
  · rw [(etag_or_padded hv).resolve_right hplain, (etag_or_padded hv').resolve_right hplain']

def conditional (value : String) : Request where
  method := .patch
  path := utf8 "/tasks/a"
  header name := if name = "If-Match" then [utf8 value] else []

/-- Both `"+3"` and `"03"` change a task at version 3, whose tag is `"3"`. -/
theorem paddedTags_pass :
    (∀ value ∈ ["\"+3\"", "\"03\""], Passes (conditional value) ⟨"a", "ship it", false, 3, 0⟩ ∧
      (conditional value).header "If-Match" ≠ [] ∧ (conditional value).tag ≠ utf8 "*" ∧
      (conditional value).tag ≠ etag 3) ∧
    ifMatch (conditional "\"+3\"") = ifMatch (conditional "\"3\"") := by
  simp only [passes_iff]
  decide +kernel

end GolangBasics.Tasks.Wire
