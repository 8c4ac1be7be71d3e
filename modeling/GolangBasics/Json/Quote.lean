import GolangBasics.Encoding
import GolangBasics.Json

/-! Strings as `encoding/json` writes them. What it writes is read back as the same text, and
no other spelling of a text is written. -/
namespace GolangBasics.Json
open List Option

def shortEscape (r : Nat) : Option UInt8 :=
  if r = 0x22 then some 0x22
  else if r = 0x5C then some 0x5C
  else if r = 0x08 then some 0x62
  else if r = 0x0C then some 0x66
  else if r = 0x0A then some 0x6E
  else if r = 0x0D then some 0x72
  else if r = 0x09 then some 0x74
  else none

def unicodeEscape (r : Nat) : Bytes :=
  [0x5C, 0x75, hexDigit (r / 4096), hexDigit (r / 256 % 16), hexDigit (r / 16 % 16),
    hexDigit (r % 16)]

/-- The runes beyond the control characters that are escaped by their code: `&`, `<`, `>` and
the line and paragraph separators. -/
def escapedRunes : List Nat := [0x26, 0x3C, 0x3E, 0x2028, 0x2029]

def escapeRune (x : Nat × Bytes) : Bytes :=
  match shortEscape x.1 with
  | some letter => [0x5C, letter]
  | none =>
    if x.1 < 0x20 ∨ x.1 ∈ escapedRunes ∨ x.1 = runeError ∧ x.2.length = 1 then unicodeEscape x.1
    else x.2

def escapeString (s : Bytes) : Bytes := (runes s).flatMap escapeRune

def plains (s : Bytes) : List Piece :=
  s.filterMap fun b => if h : 0x20 ≤ b then some (.plain b h) else none

theorem plains_cons {b : UInt8} (h : 0x20 ≤ b) (s : Bytes) :
    plains (b :: s) = .plain b h :: plains s := by
  unfold plains
  rw [filterMap_cons, dif_pos h]

section
variable {s : Bytes}

theorem leading_plains (hs : ∀ b ∈ s, 0x20 ≤ b) (ps : List Piece) :
    leading (plains s ++ ps) = s ++ leading ps := by
  induction s with
  | nil => rfl
  | cons b s ih =>
    rw [plains_cons (hs b mem_cons_self)]
    exact congrArg (b :: ·) (ih fun c hc => hs c (mem_cons_of_mem b hc))

theorem length_plains (hs : ∀ b ∈ s, 0x20 ≤ b) : (plains s).length = s.length := by
  induction s with
  | nil => rfl
  | cons b s ih =>
    rw [plains_cons (hs b mem_cons_self), length_cons, length_cons,
      ih fun c hc => hs c (mem_cons_of_mem b hc)]

theorem scanString_plains (hs : ∀ b ∈ s, 0x20 ≤ b ∧ b ≠ 0x22 ∧ b ≠ 0x5C) (tail : Bytes) :
    scanString (s ++ tail) = (scanString tail).map fun x => (plains s ++ x.1, x.2) := by
  induction s with
  | nil => simp [plains]
  | cons b s ih =>
    obtain ⟨hb, hquote, hslash⟩ := hs b mem_cons_self
    rw [cons_append, scanString.eq_def]
    simp only [hquote, hslash, if_false, dif_pos hb]
    rw [ih fun c hc => hs c (mem_cons_of_mem b hc), plains_cons hb]
    cases scanString tail <;> rfl

end

theorem unquoteFrom_eq (skip : Nat) (pieces : List Piece) :
    unquoteFrom skip pieces = unquote (pieces.drop skip) := by
  induction pieces generalizing skip with
  | nil => cases skip <;> rfl
  | cons piece rest ih =>
    cases skip with
    | zero => rfl
    | succ skip => exact ih skip

variable {letter : UInt8}

theorem scanString_escape {e : Escape} (he : Escape.ofByte letter = some e)
    (hletter : letter ≠ 0x75) (tail : Bytes) : scanString (0x5C :: letter :: tail) =
      (scanString tail).map fun x => (.escape e :: x.1, x.2) := by
  rw [scanString.eq_def]
  simp only [hletter, he, if_false, if_true, bind_eq_bind, bind_some]
  cases scanString tail <;> rfl

variable {r : Nat}

theorem scanString_unicode (hr : r < 0x10000) (tail : Bytes) :
    scanString (unicodeEscape r ++ tail) =
      (scanString tail).map fun x => (.unicode r :: x.1, x.2) := by
  have hdigit : ∀ n < 16, unhex (hexDigit n) = some n := by decide
  have hcode : ((r / 4096 * 16 + r / 256 % 16) * 16 + r / 16 % 16) * 16 + r % 16 = r := by omega
  unfold unicodeEscape
  rw [scanString.eq_def]
  simp only [cons_append, nil_append, if_true, hdigit _ (show r / 4096 < 16 by omega),
    hdigit _ (show r / 256 % 16 < 16 by omega), hdigit _ (show r / 16 % 16 < 16 by omega),
    hdigit _ (show r % 16 < 16 by omega), bind_eq_bind, bind_some, hcode]
  cases scanString tail <;> rfl

/-- What is written between the quotes is read as the text, whatever comes after it. -/
def Spells (text written : Bytes) : Prop :=
  ∃ ps, (∀ tail, scanString (written ++ tail) =
      (scanString tail).map fun x => (ps ++ x.1, x.2)) ∧
    ∀ more, unquote (ps ++ more) = text ++ unquote more

theorem spells_nil : Spells [] [] :=
  ⟨[], fun tail => by simp, fun more => rfl⟩

theorem Spells.append {text text' written written' : Bytes} (h : Spells text written)
    (h' : Spells text' written') : Spells (text ++ text') (written ++ written') := by
  obtain ⟨ps, hscan, htext⟩ := h
  obtain ⟨ps', hscan', htext'⟩ := h'
  refine ⟨ps ++ ps', fun tail => ?_, fun more => ?_⟩
  · rw [append_assoc, hscan, hscan', Option.map_map]
    simp only [Function.comp_def, append_assoc]
  · rw [append_assoc, htext, htext', append_assoc]

theorem Spells.scan {text written : Bytes} (h : Spells text written) (rest : Bytes) :
    ∃ ps, scanString (written ++ 0x22 :: rest) = some (ps, rest) ∧ unquote ps = text := by
  obtain ⟨ps, hscan, htext⟩ := h
  refine ⟨ps, ?_, ?_⟩
  · rw [hscan, scanString.eq_def]
    simp
  · have hend := htext []
    rwa [append_nil, unquote, unquote, unquoteFrom, append_nil] at hend

theorem spells_short (h : shortEscape r = some letter) : Spells (encodeRune r) [0x5C, letter] := by
  obtain ⟨e, he, hletter, hbyte⟩ : ∃ e, Escape.ofByte letter = some e ∧ letter ≠ 0x75 ∧
      encodeRune r = [e.byte] := by
    unfold shortEscape at h
    split_ifs at h
    all_goals
      subst r
      cases h
    · exact ⟨.quote, rfl, by decide, rfl⟩
    · exact ⟨.backslash, rfl, by decide, rfl⟩
    · exact ⟨.backspace, rfl, by decide, rfl⟩
    · exact ⟨.formFeed, rfl, by decide, rfl⟩
    · exact ⟨.newline, rfl, by decide, rfl⟩
    · exact ⟨.carriageReturn, rfl, by decide, rfl⟩
    · exact ⟨.tab, rfl, by decide, rfl⟩
  refine ⟨[.escape e], fun tail => scanString_escape he hletter tail, fun more => ?_⟩
  rw [hbyte]
  rfl

theorem spells_unicode (h : r < 0x20 ∨ r ∈ escapedRunes) :
    Spells (encodeRune r) (unicodeEscape r) := by
  have hr : r < 0xD800 := by
    unfold escapedRunes at h
    simp only [mem_cons, not_mem_nil, or_false] at h
    omega
  have hpair (more : List Piece) : surrogates r more = none := by
    unfold surrogates
    split
    · exact if_neg (by omega)
    · rfl
  refine ⟨[.unicode r], fun tail => scanString_unicode (by omega) tail, fun more => ?_⟩
  rw [singleton_append, unquote, unquoteFrom, hpair]
  rfl

theorem spells_plain (hr : scalar r = r) (hlow : 0x20 ≤ r) (hquote : r ≠ 0x22) (hslash : r ≠ 0x5C) :
    Spells (encodeRune r) (encodeRune r) := by
  have hbytes : ∀ b ∈ encodeRune r, 0x20 ≤ b ∧ b ≠ 0x22 ∧ b ≠ 0x5C := by
    intro b hb
    simp only [UInt8.le_iff_toNat_le, ne_eq, ← UInt8.toNat_inj, UInt8.reduceToNat]
    by_cases hascii : r < 0x80
    · have hbyte : (UInt8.ofNat r).toNat = r :=
        UInt8.toNat_ofNat_of_lt' (Nat.lt_trans hascii (by decide))
      unfold encodeRune at hb
      rw [if_pos hascii] at hb
      rw [mem_singleton.mp hb, hbyte]
      omega
    · have hwide := le_of_mem_encodeRune (by omega) hb
      omega
  refine ⟨plains (encodeRune r), scanString_plains hbytes, fun more => ?_⟩
  obtain ⟨b, bs, heq⟩ := exists_cons_of_ne_nil (encodeRune_ne_nil r)
  have hdecode := decodeRune_encodeRune r (leading more)
  rw [heq] at hbytes hdecode
  obtain ⟨hb, hbs⟩ := forall_mem_cons.mp hbytes
  have hpieces : ∀ c ∈ bs, 0x20 ≤ c := fun c hc => (hbs c hc).1
  calc unquote (plains (encodeRune r) ++ more)
      = unquoteFrom 0 (.plain b hb.1 :: (plains bs ++ more)) := by
        rw [heq, plains_cons hb.1]
        rfl
    _ = encodeRune (scalar r) ++ unquoteFrom bs.length (plains bs ++ more) := by
        rw [unquoteFrom, leading_plains hpieces, ← cons_append, hdecode]
        rfl
    _ = encodeRune r ++ unquote more := by
        rw [hr, unquoteFrom_eq, ← length_plains hpieces, drop_left]

def writeRune (r : Nat) : Bytes := escapeRune (r, encodeRune r)

theorem writeRune_short (h : shortEscape r = some letter) : writeRune r = [0x5C, letter] := by
  unfold writeRune escapeRune
  rw [h]

theorem writeRune_unicode (hshort : shortEscape r = none) (h : r < 0x20 ∨ r ∈ escapedRunes) :
    writeRune r = unicodeEscape r := by
  unfold writeRune escapeRune
  rw [hshort]
  exact if_pos (h.imp_right .inl)

theorem writeRune_plain (hshort : shortEscape r = none) (h : ¬ (r < 0x20 ∨ r ∈ escapedRunes)) :
    writeRune r = encodeRune r := by
  have hlength : ¬ (r = runeError ∧ (encodeRune r).length = 1) := by
    rintro ⟨rfl, hlength⟩
    exact absurd hlength (by decide)
  unfold writeRune escapeRune
  rw [hshort]
  exact if_neg fun hr => hr.elim (fun hr => h (.inl hr)) fun hr =>
    hr.elim (fun hr => h (.inr hr)) hlength

theorem spells_writeRune (hr : scalar r = r) : Spells (encodeRune r) (writeRune r) := by
  cases hshort : shortEscape r with
  | some letter =>
    rw [writeRune_short hshort]
    exact spells_short hshort
  | none =>
    by_cases h : r < 0x20 ∨ r ∈ escapedRunes
    · rw [writeRune_unicode hshort h]
      exact spells_unicode h
    · rw [writeRune_plain hshort h]
      refine spells_plain hr (Nat.le_of_not_lt fun hlt => h (.inl hlt)) ?_ ?_
      · rintro rfl
        cases hshort
      · rintro rfl
        cases hshort

theorem spells_flatMap {rs : List Nat} (h : ∀ r ∈ rs, scalar r = r) :
    Spells (rs.flatMap encodeRune) (rs.flatMap writeRune) := by
  induction rs with
  | nil => exact spells_nil
  | cons r rs ih =>
    obtain ⟨hr, hrs⟩ := forall_mem_cons.mp h
    exact (spells_writeRune hr).append (ih hrs)

theorem escapeString_flatMap {rs : List Nat} (h : ∀ r ∈ rs, scalar r = r) :
    escapeString (rs.flatMap encodeRune) = rs.flatMap writeRune := by
  unfold escapeString
  rw [runes_flatMap h, flatMap_map]
  rfl

inductive Written : Bytes → Prop where
  | nil : Written []
  | plain {b : UInt8} {rest : Bytes} (hb : 0x20 ≤ b.toNat ∧ b.toNat < 0x80)
      (hne : b ∉ utf8 "\"\\&<>") (h : Written rest) : Written (b :: rest)
  | wide {r : Nat} {rest : Bytes} (hr : 0x80 ≤ r ∧ scalar r = r) (hne : r ∉ [0x2028, 0x2029])
      (h : Written rest) : Written (encodeRune r ++ rest)
  | short {letter : UInt8} {rest : Bytes} (hletter : letter ∈ utf8 "\"\\bfnrt")
      (h : Written rest) : Written (0x5C :: letter :: rest)
  | unicode {r : Nat} {rest : Bytes}
      (hr : r < 0x20 ∧ r ∉ [0x08, 0x09, 0x0A, 0x0C, 0x0D] ∨ r ∈ escapedRunes) (h : Written rest) :
      Written (unicodeEscape r ++ rest)

def WritesRunes (s : Bytes) : Prop :=
  ∃ rs : List Nat, (∀ r ∈ rs, scalar r = r) ∧ s = rs.flatMap writeRune

theorem WritesRunes.cons {w rest : Bytes} (hr : scalar r = r) (hw : writeRune r = w)
    (h : WritesRunes rest) : WritesRunes (w ++ rest) := by
  obtain ⟨rs, hrs, hrest⟩ := h
  refine ⟨r :: rs, forall_mem_cons.mpr ⟨hr, hrs⟩, ?_⟩
  rw [flatMap_cons, hw, hrest]

theorem shortEscape_wide (h : 0x80 ≤ r) : shortEscape r = none := by
  unfold shortEscape
  rw [if_neg (by omega), if_neg (by omega), if_neg (by omega), if_neg (by omega),
    if_neg (by omega), if_neg (by omega), if_neg (by omega)]

theorem shortEscape_none (h : r < 0x20 ∧ r ∉ [0x08, 0x09, 0x0A, 0x0C, 0x0D] ∨ r ∈ escapedRunes) :
    shortEscape r = none ∧ scalar r = r := by
  have hcontrol : ∀ r < 0x20, r ∉ [0x08, 0x09, 0x0A, 0x0C, 0x0D] →
      shortEscape r = none ∧ scalar r = r := by decide
  have hothers : ∀ r ∈ escapedRunes, shortEscape r = none ∧ scalar r = r := by decide
  exact h.elim (fun h => hcontrol r h.1 h.2) (hothers r)

theorem writeRune_ascii {b : UInt8} (hb : 0x20 ≤ b.toNat ∧ b.toNat < 0x80)
    (hne : b ∉ utf8 "\"\\&<>") : writeRune b.toNat = [b] ∧ scalar b.toNat = b.toNat := by
  have hall : ∀ n < 0x80, 0x20 ≤ n → UInt8.ofNat n ∉ utf8 "\"\\&<>" →
      writeRune n = [UInt8.ofNat n] := by decide +kernel
  have hwrite := hall b.toNat hb.2 hb.1
  rw [UInt8.ofNat_toNat] at hwrite
  exact ⟨hwrite hne, scalar_eq.mpr (by omega)⟩

theorem Written.writesRunes {s : Bytes} (h : Written s) : WritesRunes s := by
  induction h with
  | nil => exact ⟨[], nofun, rfl⟩
  | @plain b rest hb hne h ih =>
    obtain ⟨hwrite, hscalar⟩ := writeRune_ascii hb hne
    exact ih.cons (w := [b]) hscalar hwrite
  | @wide r rest hr hne h ih =>
    refine ih.cons hr.2 (writeRune_plain (shortEscape_wide hr.1) ?_)
    unfold escapedRunes
    simp only [mem_cons, not_mem_nil, or_false] at hne ⊢
    omega
  | @short letter rest hletter h ih =>
    have hall : ∀ letter ∈ utf8 "\"\\bfnrt", ∃ r < 0x80, shortEscape r = some letter := by
      decide +kernel
    obtain ⟨r, hr, hshort⟩ := hall letter hletter
    exact ih.cons (w := [0x5C, letter]) (scalar_eq.mpr (by omega)) (writeRune_short hshort)
  | @unicode r rest hr h ih =>
    obtain ⟨hshort, hscalar⟩ := shortEscape_none hr
    exact ih.cons hscalar (writeRune_unicode hshort (hr.imp_left And.left))

theorem WritesRunes.written {s : Bytes} (h : WritesRunes s) : Written s := by
  obtain ⟨rs, hrs, rfl⟩ := h
  induction rs with
  | nil => exact .nil
  | cons r rs ih =>
    obtain ⟨hr, hrs⟩ := forall_mem_cons.mp hrs
    have hrest := ih hrs
    rw [flatMap_cons]
    cases hshort : shortEscape r with
    | some letter =>
      have hletter : letter ∈ utf8 "\"\\bfnrt" := by
        unfold shortEscape at hshort
        split_ifs at hshort
        all_goals
          cases hshort
          decide +kernel
      rw [writeRune_short hshort]
      exact .short hletter hrest
    | none =>
      by_cases h : r < 0x20 ∨ r ∈ escapedRunes
      · have hcontrol : ∀ r < 0x20, shortEscape r = none → r ∉ [0x08, 0x09, 0x0A, 0x0C, 0x0D] := by
          decide
        rw [writeRune_unicode hshort h]
        exact .unicode (h.imp_left fun hlow => ⟨hlow, hcontrol r hlow hshort⟩) hrest
      · rw [writeRune_plain hshort h]
        by_cases hascii : r < 0x80
        · have hall : ∀ r < 0x80, shortEscape r = none → r ∉ escapedRunes →
              UInt8.ofNat r ∉ utf8 "\"\\&<>" := by decide +kernel
          have hne := hall r hascii hshort fun hmem => h (.inr hmem)
          have hlow : 0x20 ≤ r := Nat.le_of_not_lt fun hlt => h (.inl hlt)
          have hbyte : (UInt8.ofNat r).toNat = r :=
            UInt8.toNat_ofNat_of_lt' (Nat.lt_trans hascii (by decide))
          unfold encodeRune
          rw [if_pos hascii]
          exact .plain (by omega) hne hrest
        · refine .wide ⟨by omega, hr⟩ ?_ hrest
          unfold escapedRunes at h
          simp only [mem_cons, not_mem_nil, or_false] at h ⊢
          omega

/-- A valid string is read back from what is written for it, and what is written for it is one
of the spellings above. -/
theorem spells_escapeString {s : Bytes} (h : validString s = true) :
    Spells s (escapeString s) ∧ Written (escapeString s) := by
  obtain ⟨rs, hrs, rfl⟩ := exists_scalars h
  rw [escapeString_flatMap hrs]
  exact ⟨spells_flatMap hrs, WritesRunes.written ⟨rs, hrs, rfl⟩⟩

/-- Each of the spellings above is what is written for its text. -/
theorem Written.spells {written : Bytes} (h : Written written) :
    ∃ text, Spells text written ∧ escapeString text = written := by
  obtain ⟨rs, hrs, rfl⟩ := h.writesRunes
  exact ⟨rs.flatMap encodeRune, spells_flatMap hrs, escapeString_flatMap hrs⟩

theorem escapeString_ascii {s : Bytes}
    (h : ∀ b ∈ s, (0x20 ≤ b.toNat ∧ b.toNat < 0x80) ∧ b ∉ utf8 "\"\\&<>") : escapeString s = s := by
  induction s with
  | nil => rfl
  | cons b s ih =>
    obtain ⟨⟨hb, hne⟩, hs⟩ := forall_mem_cons.mp h
    obtain ⟨hwrite, -⟩ := writeRune_ascii hb hne
    have hencode : encodeRune b.toNat = [b] := by
      unfold encodeRune
      rw [if_pos hb.2, UInt8.ofNat_toNat]
    unfold writeRune at hwrite
    rw [hencode] at hwrite
    have hcons : escapeString (b :: s) = escapeRune (b.toNat, [b]) ++ escapeString s := by
      unfold escapeString
      rw [runes_cons, decodeRune_ascii hb.2]
      rfl
    rw [hcons, hwrite, ih hs]
    rfl

section
variable {fuel depth : Nat} {s rest : Bytes} {members : List (List Piece × Value)}

theorem skipBlank_cons {b : UInt8} (hb : isBlank b = false) (s : Bytes) :
    skipBlank (b :: s) = b :: s := by
  unfold skipBlank
  rw [dropWhile_cons_of_neg (by simp [hb])]

theorem scanValue_string {ps : List Piece} (h : scanString s = some (ps, rest)) :
    scanValue (fuel + 1) depth (0x22 :: s) = some (.string ps, rest) := by
  rw [scanValue, skipBlank_cons (by decide)]
  dsimp only
  rw [if_pos rfl, h]
  rfl

theorem scanValue_object (h : scanMembers fuel depth (0x22 :: s) = some (members, rest)) :
    scanValue (fuel + 1) (depth + 1) (0x7B :: 0x22 :: s) = some (.object members, rest) := by
  rw [scanValue, skipBlank_cons (by decide)]
  dsimp only
  rw [if_neg (by decide), if_pos rfl, skipBlank_cons (by decide)]
  simp [h]

theorem scanMembers_more {name : List Piece} {v : Value} {s₁ s₂ : Bytes}
    (hname : scanString s = some (name, 0x3A :: s₁))
    (hvalue : scanValue fuel depth s₁ = some (v, 0x2C :: s₂))
    (hmore : scanMembers fuel depth s₂ = some (members, rest)) :
    scanMembers (fuel + 1) depth (0x22 :: s) = some ((name, v) :: members, rest) := by
  have hquote : isBlank 0x22 = false := by decide
  have hcolon : isBlank 0x3A = false := by decide
  have hcomma : isBlank 0x2C = false := by decide
  rw [scanMembers]
  simp only [skipBlank_cons hquote, skipBlank_cons hcolon, skipBlank_cons hcomma, hname, hvalue,
    hmore, bind_eq_bind, bind_some, map_some]

theorem scanMembers_last {name : List Piece} {v : Value} {s₁ : Bytes}
    (hname : scanString s = some (name, 0x3A :: s₁))
    (hvalue : scanValue fuel depth s₁ = some (v, 0x7D :: rest)) :
    scanMembers (fuel + 1) depth (0x22 :: s) = some ([(name, v)], rest) := by
  have hquote : isBlank 0x22 = false := by decide
  have hcolon : isBlank 0x3A = false := by decide
  have hbrace : isBlank 0x7D = false := by decide
  rw [scanMembers]
  simp only [skipBlank_cons hquote, skipBlank_cons hcolon, skipBlank_cons hbrace, hname, hvalue,
    bind_eq_bind, bind_some]

end

end GolangBasics.Json
