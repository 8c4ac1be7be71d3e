import GolangBasics.Tasks.Wire.Requests
import Mathlib.Computability.Language
import Mathlib.Data.List.DropRight

/-! Titles: what `NormalizeTitle` takes and returns, next to the schema of the contract. The two
differ in what they call white space. -/
namespace GolangBasics.Tasks.Wire
open List

def encodeText (text : List Char) : Bytes := text.flatMap fun c => encodeRune c.toNat

/-- The class `[^\u0000-\u0008\u000A-\u001F\u007F]`. -/
def allowed (c : Char) : Bool :=
  !(c.toNat ≤ 0x08 || (0x0A ≤ c.toNat && c.toNat ≤ 0x1F) || c.toNat = 0x7F)

/-- The class `\s` of ECMA-262: its `WhiteSpace` and `LineTerminator`. -/
def isWhite (c : Char) : Bool :=
  (0x09 ≤ c.toNat && c.toNat ≤ 0x0D) || (0x2000 ≤ c.toNat && c.toNat ≤ 0x200A) ||
    [0x20, 0xA0, 0x1680, 0x2028, 0x2029, 0x202F, 0x205F, 0x3000, 0xFEFF].contains c.toNat

/-- The class `[^\s\u0000-\u001F\u007F]`. -/
def visible (c : Char) : Bool := !(isWhite c || c.toNat ≤ 0x1F || c.toNat = 0x7F)

def ofClass (p : Char → Bool) : Language Char := {s | ∃ c, p c = true ∧ s = [c]}

def titlePattern : Language Char :=
  KStar.kstar (ofClass allowed) * ofClass visible * KStar.kstar (ofClass allowed)

structure TitleSchema (title : List Char) : Prop where
  minLength : 1 ≤ title.length
  maxLength : title.length ≤ 200
  pattern : title ∈ titlePattern

theorem mem_kstar_ofClass {p : Char → Bool} {s : List Char} :
    s ∈ KStar.kstar (ofClass p) ↔ ∀ c ∈ s, p c = true := by
  rw [Language.mem_kstar]
  constructor
  · rintro ⟨words, rfl, hwords⟩ c hc
    obtain ⟨word, hword, hc⟩ := mem_flatten.mp hc
    obtain ⟨d, hd, rfl⟩ := hwords word hword
    rw [mem_singleton.mp hc]
    exact hd
  · intro h
    refine ⟨s.map ([·]), ?_, fun word hword => ?_⟩
    · rw [← flatMap_def, List.flatMap_singleton']
    · obtain ⟨c, hc, rfl⟩ := mem_map.mp hword
      exact ⟨c, h c hc, rfl⟩

theorem allowed_iff {c : Char} :
    allowed c = true ↔ c.toNat = 0x09 ∨ 0x20 ≤ c.toNat ∧ c.toNat ≠ 0x7F := by
  unfold allowed
  simp only [Bool.not_eq_true', Bool.or_eq_false_iff, Bool.and_eq_false_iff, decide_eq_false_iff_not]
  omega

theorem visible_iff {c : Char} : visible c = true ↔ isWhite c = false ∧ allowed c = true := by
  have htab : c.toNat = 0x09 → isWhite c = true := by
    intro h
    unfold isWhite
    rw [h]
    rfl
  rw [allowed_iff]
  unfold visible
  simp only [Bool.not_eq_true', Bool.or_eq_false_iff, decide_eq_false_iff_not]
  grind

variable {title : List Char}

theorem mem_titlePattern :
    title ∈ titlePattern ↔ (∀ c ∈ title, allowed c = true) ∧ ∃ c ∈ title, visible c = true := by
  unfold titlePattern
  rw [Language.mem_mul]
  constructor
  · rintro ⟨s, hs, back, hback, rfl⟩
    obtain ⟨front, hfront, mid, ⟨c, hc, rfl⟩, rfl⟩ := Language.mem_mul.mp hs
    rw [mem_kstar_ofClass] at hfront hback
    refine ⟨?_, c, by simp, hc⟩
    intro d hd
    simp only [mem_append, mem_singleton] at hd
    obtain (hd | rfl) | hd := hd
    · exact hfront d hd
    · exact (visible_iff.mp hc).2
    · exact hback d hd
  · rintro ⟨hallowed, c, hc, hvisible⟩
    obtain ⟨front, back, rfl⟩ := append_of_mem hc
    refine ⟨front ++ [c], Language.mem_mul.mpr ⟨front, ?_, [c], ⟨c, hvisible, rfl⟩, rfl⟩, back, ?_,
      by simp⟩
    · exact mem_kstar_ofClass.mpr fun d hd => hallowed d (by simp [hd])
    · exact mem_kstar_ofClass.mpr fun d hd => hallowed d (by simp [hd])

/-- What the two call white space: only Go has U+0085, only ECMA-262 has U+FEFF. -/
theorem isWhite_eq (c : Char) :
    isWhite c = ((isSpace c.toNat && c.toNat ≠ 0x85) || c.toNat = 0xFEFF) := by
  unfold isWhite isSpace
  simp only [contains_cons, contains_nil]
  grind

def trim (text : List Char) : List Char :=
  (text.dropWhile fun c => isSpace c.toNat).rdropWhile fun c => isSpace c.toNat

theorem runes_encodeText (text : List Char) :
    runes (encodeText text) = text.map fun c => (c.toNat, encodeRune c.toNat) := by
  have hscalar : ∀ r ∈ text.map Char.toNat, scalar r = r := by
    intro r hr
    obtain ⟨c, -, rfl⟩ := mem_map.mp hr
    have hvalid : c.toNat < 0xD800 ∨ 0xDFFF < c.toNat ∧ c.toNat < 0x110000 := c.valid
    exact scalar_eq.mpr (by omega)
  have hrunes := runes_flatMap hscalar
  rwa [flatMap_map, map_map] at hrunes

theorem trimSpace_encodeText (text : List Char) :
    trimSpace (encodeText text) = encodeText (trim text) := by
  unfold trimSpace trim encodeText List.rdropWhile
  rw [← encodeText, runes_encodeText]
  simp only [dropWhile_map, ← map_reverse, flatMap_map]
  rfl

theorem validString_encodeText (text : List Char) : validString (encodeText text) = true := by
  induction text with
  | nil => rfl
  | cons c text ih => exact (validString_encodeRune c.toNat (encodeText text)).trans ih

theorem encodeText_eq_nil {text : List Char} : encodeText text = [] ↔ text = [] := by
  unfold encodeText
  rw [flatMap_eq_nil_iff]
  constructor
  · intro h
    exact eq_nil_iff_forall_not_mem.mpr fun c hc => encodeRune_ne_nil c.toNat (h c hc)
  · rintro rfl
    nofun

/-- What is left of a title when its white space is off, if it is taken. -/
structure Stored (text : List Char) : Prop where
  nonempty : text ≠ []
  short : text.length ≤ 200
  clean : ∀ c ∈ text, allowed c = true

theorem normalizeTitle_encodeText {t : Bytes} :
    normalizeTitle (encodeText title) = .ok t ↔ t = encodeText (trim title) ∧ Stored (trim title) := by
  unfold normalizeTitle
  simp only [trimSpace_encodeText, encodeText_eq_nil, validString_encodeText, runes_encodeText,
    length_map]
  generalize trim title = core
  by_cases hnil : core = []
  · rw [if_pos hnil]
    exact iff_of_false nofun fun h => h.2.nonempty hnil
  rw [if_neg hnil, if_neg (by decide)]
  by_cases hlong : maxTitleRunes < core.length
  · rw [if_pos hlong]
    exact iff_of_false nofun fun h => Nat.not_le.mpr hlong h.2.short
  rw [if_neg hlong]
  split
  · rename_i x hfind
    -- the loop has found a control character
    obtain ⟨c, hc, rfl⟩ := mem_map.mp (List.mem_of_find?_eq_some hfind)
    have hbad := List.find?_some hfind
    refine iff_of_false ?_ fun h => ?_
    · split_ifs <;> nofun
    · have hclean := allowed_iff.mp (h.2.clean c hc)
      simp only [Bool.or_eq_true, Bool.and_eq_true, decide_eq_true_eq] at hbad
      omega
  · rename_i hfind
    have hclean : ∀ c ∈ core, allowed c = true := by
      intro c hc
      have hgood := List.find?_eq_none.mp hfind _ (mem_map_of_mem hc)
      simp only [Bool.or_eq_true, Bool.and_eq_true, decide_eq_true_eq] at hgood
      exact allowed_iff.mpr (by omega)
    constructor
    · intro h
      obtain rfl := Except.ok.inj h
      exact ⟨rfl, hnil, Nat.not_lt.mp hlong, hclean⟩
    · rintro ⟨rfl, -⟩
      rfl

section
variable {text : List Char}

theorem mem_of_mem_trim {c : Char} (h : c ∈ trim text) : c ∈ text :=
  (dropWhile_suffix _).subset (( rdropWhile_prefix _ _).subset h)

theorem length_trim_le : (trim text).length ≤ text.length :=
  (( rdropWhile_prefix _ _).length_le).trans (dropWhile_suffix _).length_le

theorem exists_mem_trim (h : trim text ≠ []) : ∃ c ∈ trim text, isSpace c.toNat = false :=
  ⟨_, getLast_mem h, Bool.eq_false_iff.mpr (rdropWhile_last_not _ _ h)⟩

theorem trim_eq_nil : trim text = [] ↔ ∀ c ∈ text, isSpace c.toNat = true := by
  constructor
  · intro h c hc
    have hrest := rdropWhile_eq_nil_iff.mp h
    rw [← takeWhile_append_dropWhile (p := fun c => isSpace c.toNat) (l := text)] at hc
    obtain hc | hc := mem_append.mp hc
    · exact mem_takeWhile_imp (p := fun c : Char => isSpace c.toNat) hc
    · exact hrest c hc
  · intro h
    unfold trim
    rw [dropWhile_eq_nil_iff.mpr h]
    rfl

theorem trim_trim : trim (trim text) = trim text := by
  have hlast : (trim text).rdropWhile (fun c => isSpace c.toNat) = trim text :=
    rdropWhile_idempotent _ _
  have hfront := dropWhile_idempotent (fun c => isSpace c.toNat) text
  have hsplit : trim text ++ _ = _ := rdropWhile_append_rtakeWhile
  rw [trim]
  cases htrim : trim text with
  | nil => rfl
  | cons c rest =>
    rw [htrim] at hlast hsplit
    rw [← hsplit, cons_append] at hfront
    have hc : isSpace c.toNat = false :=
      Bool.eq_false_iff.mpr (dropWhile_eq_self_iff.mp hfront (Nat.succ_pos _))
    rw [dropWhile_cons_of_neg (by simp [hc])]
    exact hlast

end

theorem encodeText_injective {s t : List Char} (h : encodeText s = encodeText t) : s = t := by
  have hrunes := congrArg runes h
  rw [runes_encodeText, runes_encodeText] at hrunes
  refine map_injective_iff.mpr (fun c d hcd => ?_) hrunes
  exact Char.toNat_inj.mp (Prod.mk.inj hcd).1

/-- A title of white space with U+0085 in it: the schema takes U+0085 for a visible character. -/
structure OnlyNextLines (title : List Char) : Prop where
  blank : ∀ c ∈ title, isSpace c.toNat = true
  nextLine : Char.ofNat 0x85 ∈ title
  short : title.length ≤ 200
  clean : ∀ c ∈ title, allowed c = true

/-- A title that is white space to the schema, with U+FEFF in it, which `TrimSpace` leaves. -/
structure OnlyMarks (title : List Char) : Prop where
  white : ∀ c ∈ trim title, isWhite c = true
  mark : Char.ofNat 0xFEFF ∈ trim title
  short : (trim title).length ≤ 200
  clean : ∀ c ∈ trim title, allowed c = true

theorem eq_ofNat {c : Char} {n : Nat} (h : c.toNat = n) : c = Char.ofNat n := by
  rw [← h, Char.ofNat_toNat]

theorem OnlyNextLines.schema (h : OnlyNextLines title) : TitleSchema title := by
  have hvisible : visible (Char.ofNat 0x85) = true := by decide
  exact ⟨length_pos_of_mem h.nextLine, h.short,
    mem_titlePattern.mpr ⟨h.clean, _, h.nextLine, hvisible⟩⟩

theorem OnlyMarks.stored (h : OnlyMarks title) : Stored (trim title) :=
  ⟨ne_nil_of_mem h.mark, h.short, h.clean⟩

theorem schema_accepted (h : ¬ OnlyNextLines title) (hs : TitleSchema title) :
    Stored (trim title) := by
  obtain ⟨hallowed, c, hc, hvisible⟩ := mem_titlePattern.mp hs.pattern
  refine ⟨fun hnil => ?_, length_trim_le.trans hs.maxLength, fun d hd => hallowed d (mem_of_mem_trim hd)⟩
  have hblank := trim_eq_nil.mp hnil
  have hwhite := (visible_iff.mp hvisible).1
  have hnext : c.toNat = 0x85 := by
    rw [isWhite_eq, hblank c hc] at hwhite
    simp only [Bool.true_and, Bool.or_eq_false_iff, decide_eq_false_iff_not, not_not] at hwhite
    exact hwhite.1
  exact h ⟨hblank, eq_ofNat hnext ▸ hc, hs.maxLength, hallowed⟩

theorem stored_schema (h : ¬ OnlyMarks title) (hs : Stored (trim title)) :
    TitleSchema (trim title) := by
  refine ⟨length_pos_of_ne_nil hs.nonempty, hs.short, mem_titlePattern.mpr ⟨hs.clean, ?_⟩⟩
  by_contra hnone
  have hwhite : ∀ c ∈ trim title, isWhite c = true := by
    intro c hc
    by_contra hc'
    exact hnone ⟨c, hc, visible_iff.mpr ⟨Bool.eq_false_iff.mpr hc', hs.clean c hc⟩⟩
  obtain ⟨c, hc, hspace⟩ := exists_mem_trim hs.nonempty
  have hmark : c.toNat = 0xFEFF := by
    have hc' := hwhite c hc
    rw [isWhite_eq, hspace] at hc'
    exact of_decide_eq_true hc'
  exact h ⟨hwhite, eq_ofNat hmark ▸ hc, hs.short, hs.clean⟩

/-- A title that is stored stays as it is. The schema and `NormalizeTitle` agree on a title
exactly where the two notions of white space do not come between them. -/
theorem titles_keep_contract (title : List Char) :
    (∀ t, normalizeTitle (encodeText title) = .ok t → normalizeTitle t = .ok t) ∧
    ((TitleSchema title → ∃ t, normalizeTitle (encodeText title) = .ok t) ∧
      (∀ t, normalizeTitle (encodeText title) = .ok t →
        ∃ text, t = encodeText text ∧ TitleSchema text) ↔
      ¬ OnlyNextLines title ∧ ¬ OnlyMarks title) := by
  refine ⟨fun t ht => ?_, ?_, ?_⟩
  · obtain ⟨rfl, hs⟩ := normalizeTitle_encodeText.mp ht
    rw [normalizeTitle_encodeText, trim_trim]
    exact ⟨rfl, hs⟩
  · rintro ⟨htaken, hkept⟩
    constructor
    · intro hnext
      obtain ⟨t, ht⟩ := htaken hnext.schema
      exact (normalizeTitle_encodeText.mp ht).2.nonempty (trim_eq_nil.mpr hnext.blank)
    · intro hmarks
      obtain ⟨text, htext, hs⟩ := hkept _ (normalizeTitle_encodeText.mpr ⟨rfl, hmarks.stored⟩)
      obtain rfl := encodeText_injective htext
      obtain ⟨-, c, hc, hvisible⟩ := mem_titlePattern.mp hs.pattern
      exact absurd (hmarks.white c hc) (by rw [(visible_iff.mp hvisible).1]; decide)
  · rintro ⟨hnext, hmarks⟩
    constructor
    · intro hs
      exact ⟨_, normalizeTitle_encodeText.mpr ⟨rfl, schema_accepted hnext hs⟩⟩
    · intro t ht
      obtain ⟨rfl, hs⟩ := normalizeTitle_encodeText.mp ht
      exact ⟨_, rfl, stored_schema hmarks hs⟩

/-- The schema takes U+0085 alone, which is refused; U+FEFF alone is stored, against the
schema. -/
theorem nextLine_and_mark :
    (TitleSchema [Char.ofNat 0x85] ∧ normalizeTitle (encodeText [Char.ofNat 0x85]) =
        .error "invalid title: must not be empty or blank") ∧
      normalizeTitle (encodeText [Char.ofNat 0xFEFF]) = .ok (encodeText [Char.ofNat 0xFEFF]) ∧
        ¬ TitleSchema [Char.ofNat 0xFEFF] := by
  refine ⟨⟨⟨by decide, by decide, ?_⟩, by decide +kernel⟩, by decide +kernel, fun h => ?_⟩
  · exact mem_titlePattern.mpr
      ⟨forall_mem_singleton.mpr (by decide), _, mem_singleton_self _, by decide⟩
  · obtain ⟨-, c, hc, hvisible⟩ := mem_titlePattern.mp h.pattern
    obtain rfl := mem_singleton.mp hc
    exact absurd hvisible (by decide)

end GolangBasics.Tasks.Wire
