import GolangBasics.Json.Quote
import GolangBasics.Rfc3339.Canonical
import GolangBasics.Tasks.Wire.Requests

/-! Cursors as the service issues them: they are read back as they were, and go into a query
as they are. `DecodeCursor` takes other spellings of a cursor too. -/
namespace GolangBasics.Tasks.Wire
open List Option
open Json (Piece Value Spells escapeString unquote)

/-- The document of a cursor, with the texts between their quotes. -/
def layout (t i : Bytes) : Bytes :=
  utf8 "\x7b\"t\":\"" ++ (t ++ (utf8 "\",\"i\":\"" ++ (i ++ utf8 "\"\x7d")))

def Cursor.encode (c : Cursor) : Bytes :=
  rawURLEncode (layout (escapeString (Rfc3339.format c.createdAt)) (escapeString c.id))

/-- The document is read as the two texts that are spelled in it. -/
theorem parse_layout {t i T I : Bytes} (ht : Spells t T) (hi : Spells i I) :
    ∃ w : CursorWire, (Json.parse (layout T I)).bind Value.members =
        some [([.plain 0x74 (by decide)], .string w.t), ([.plain 0x69 (by decide)], .string w.i)] ∧
      unquote w.t = t ∧ unquote w.i = i := by
  have hopen : utf8 "\x7b\"t\":\"" = [0x7B, 0x22, 0x74, 0x22, 0x3A, 0x22] := by decide
  have hmiddle : utf8 "\",\"i\":\"" = [0x22, 0x2C, 0x22, 0x69, 0x22, 0x3A, 0x22] := by
    decide
  have hclose : utf8 "\"\x7d" = [0x22, 0x7D] := by decide
  have hlayout : layout T I = 0x7B :: 0x22 :: 0x74 :: 0x22 :: 0x3A :: 0x22 :: (T ++ 0x22 :: 0x2C ::
      0x22 :: 0x69 :: 0x22 :: 0x3A :: 0x22 :: (I ++ 0x22 :: [0x7D])) := by
    unfold layout
    rw [hopen, hmiddle, hclose]
    rfl
  obtain ⟨qs, hscan', hqs⟩ := hi.scan [0x7D]
  obtain ⟨ps, hscan, hps⟩ := ht.scan
    (0x2C :: 0x22 :: 0x69 :: 0x22 :: 0x3A :: 0x22 :: (I ++ 0x22 :: [0x7D]))
  refine ⟨⟨ps, qs⟩, ?_, hps, hqs⟩
  have hname {b : UInt8} (h : 0x20 ≤ b ∧ b ≠ 0x22 ∧ b ≠ 0x5C) (s : Bytes) :
      Json.scanString (b :: 0x22 :: s) = some ([.plain b h.1], s) := by
    have hplain := Json.scanString_plains (s := [b]) (fun c hc => mem_singleton.mp hc ▸ h)
      (0x22 :: s)
    rw [Json.plains_cons h.1] at hplain
    rw [← singleton_append, hplain, Json.scanString.eq_def]
    rfl
  unfold Json.parse
  rw [hlayout, length_cons]
  generalize List.length _ = n
  have hfuel : 2 * (n + 1) + 2 = 2 * n + 1 + 1 + 1 + 1 := by omega
  have hdepth : Json.maxNestingDepth = 9999 + 1 := rfl
  rw [hfuel, hdepth, Json.scanValue_object (Json.scanMembers_more (hname (by decide) _)
    (Json.scanValue_string hscan) (Json.scanMembers_last (hname (by decide) _)
      (Json.scanValue_string hscan')))]
  rfl

theorem cursorWire_layout {s t i T I : Bytes} (hs : rawURLDecode s = some (layout T I))
    (ht : Spells t T) (hi : Spells i I) :
    ∃ w, cursorWire s = some w ∧ unquote w.t = t ∧ unquote w.i = i := by
  obtain ⟨w, hmembers, hwt, hwi⟩ := parse_layout ht hi
  refine ⟨w, ?_, hwt, hwi⟩
  obtain ⟨v, hv, hmembers⟩ := bind_eq_some_iff.mp hmembers
  unfold cursorWire
  rw [hs, bind_eq_bind, bind_some, hv, bind_eq_bind, bind_some, hmembers]
  rfl

theorem decodeCursor_layout {s t i T I : Bytes} (hs : rawURLDecode s = some (layout T I))
    (ht : Spells t T) (hi : Spells i I) :
    decodeCursor s =
      (Rfc3339.parse t).bind fun createdAt => if i = [] then none else some ⟨createdAt, i⟩ := by
  obtain ⟨w, hw, hwt, hwi⟩ := cursorWire_layout hs ht hi
  unfold decodeCursor
  rw [hw, bind_eq_bind, bind_some, hwt, hwi]
  rfl

theorem plain_time {b : UInt8}
    (h : Json.isDigit b = true ∨ b ∈ [0x2D, 0x54, 0x3A, 0x2E, 0x5A]) :
    (0x20 ≤ b.toNat ∧ b.toNat < 0x80) ∧ b ∉ utf8 "\"\\&<>" := by
  have hmarks : utf8 "\"\\&<>" = [0x22, 0x5C, 0x26, 0x3C, 0x3E] := by decide
  rw [hmarks]
  cases h with
  | inl hdigit =>
    rw [Json.isDigit, Bool.and_eq_true, decide_eq_true_iff, decide_eq_true_iff,
      UInt8.le_iff_toNat_le, UInt8.le_iff_toNat_le] at hdigit
    have hlow : 0x30 ≤ b.toNat := hdigit.1
    have hhigh : b.toNat ≤ 0x39 := hdigit.2
    refine ⟨by omega, fun hmem => ?_⟩
    simp only [mem_cons, not_mem_nil, or_false] at hmem
    obtain rfl | rfl | rfl | rfl | rfl := hmem
    all_goals exact absurd hdigit (by decide)
  | inr hmem =>
    simp only [mem_cons, not_mem_nil, or_false] at hmem
    obtain rfl | rfl | rfl | rfl | rfl := hmem
    all_goals decide

theorem spells_time {time : Bytes}
    (h : ∀ b ∈ time, Json.isDigit b = true ∨ b ∈ [0x2D, 0x54, 0x3A, 0x2E, 0x5A]) :
    Spells time time := by
  have hascii : ∀ b ∈ time, b.toNat < 0x80 := fun b hb => (plain_time (h b hb)).1.2
  have hspells := (Json.spells_escapeString (validString_of_ascii hascii)).1
  rwa [Json.escapeString_ascii fun b hb => plain_time (h b hb)] at hspells

theorem escapeString_format (t : Int) : escapeString (Rfc3339.format t) = Rfc3339.format t :=
  Json.escapeString_ascii fun _ hb => plain_time (Rfc3339.mem_format hb)

theorem spells_format (t : Int) : Spells (Rfc3339.format t) (Rfc3339.format t) :=
  spells_time fun _ hb => Rfc3339.mem_format hb

theorem mem_encode {c : Cursor} {b : UInt8} (h : b ∈ c.encode) :
    (Url.isAlphanumeric b = true ∨ b = 0x2D ∨ b = 0x5F) ∧ Url.plainInQuery b = true := by
  have hall : ∀ n < 64, (Url.isAlphanumeric (base64Digit n) = true ∨ base64Digit n = 0x2D ∨
      base64Digit n = 0x5F) ∧ Url.plainInQuery (base64Digit n) = true := by decide +kernel
  obtain ⟨n, hn, rfl⟩ := List.mem_map.mp h
  exact hall n (toSextets_lt _ n hn)

/-- A cursor that was issued is read as it was, and it needs no escape in a query. -/
theorem cursor_roundTrip {c : Cursor} (hid : c.id ≠ []) (hutf8 : validString c.id = true)
    (hlow : 0 ≤ Rfc3339.utcYear c.createdAt) (hhigh : Rfc3339.utcYear c.createdAt ≤ 9999) :
    decodeCursor c.encode = some c ∧
      (∀ b ∈ c.encode, Url.isAlphanumeric b = true ∨ b = 0x2D ∨ b = 0x5F) ∧
      Url.query (utf8 "cursor=" ++ c.encode) = [(utf8 "cursor", c.encode)] := by
  refine ⟨?_, fun b hb => (mem_encode hb).1, ?_⟩
  · have hdecode : rawURLDecode c.encode =
        some (layout (Rfc3339.format c.createdAt) (escapeString c.id)) := by
      unfold Cursor.encode
      rw [escapeString_format, rawURLDecode_rawURLEncode]
    rw [decodeCursor_layout hdecode (spells_format c.createdAt)
      (Json.spells_escapeString hutf8).1, Rfc3339.parse_format hlow hhigh, bind_some,
      if_neg hid]
  · have hkey : utf8 "cursor=" ++ c.encode = utf8 "cursor" ++ 0x3D :: c.encode := by
      rw [show utf8 "cursor=" = utf8 "cursor" ++ [0x3D] by decide, append_assoc]
      rfl
    rw [hkey]
    exact Url.query_plain (by decide +kernel) fun b hb => (mem_encode hb).2

/-- A cursor on a leap day, whose id has characters that are escaped. -/
theorem cursor_roundTrip_leapDay :
    decodeCursor (Cursor.encode ⟨1709204400500000000, utf8 "a<\"\n\x7f\u00e9"⟩) =
      some ⟨1709204400500000000, utf8 "a<\"\n\x7f\u00e9"⟩ :=
  (cursor_roundTrip (c := ⟨1709204400500000000, utf8 "a<\"\n\x7f\u00e9"⟩) (by decide +kernel)
    (by decide +kernel) (by decide +kernel) (by decide +kernel)).1

/-- The spelling that is issued, among those that are taken. -/
structure CanonicalCursor (s : Bytes) : Prop where
  tight : Tight s
  /-- The document has its two members in their order, without blanks. -/
  document : ∃ time id, rawURLDecode s = some (layout time id) ∧
    (∀ b ∈ time, Json.isDigit b = true ∨ b ∈ [0x2D, 0x54, 0x3A, 0x2E, 0x5A]) ∧
    Rfc3339.Canonical time ∧ Json.Written id

theorem decodeCursor_some {s : Bytes} {c : Cursor} (h : decodeCursor s = some c) :
    validString c.id = true := by
  unfold decodeCursor at h
  obtain ⟨w, -, h⟩ := bind_eq_some_iff.mp h
  obtain ⟨createdAt, -, h⟩ := bind_eq_some_iff.mp h
  split_ifs at h
  obtain rfl := some.inj h
  exact Json.validString_unquote w.i

/-- A cursor that is taken is one that was issued exactly where it has the spelling above. -/
theorem encode_decodeCursor {s : Bytes} {c : Cursor} (h : decodeCursor s = some c) :
    c.encode = s ↔ CanonicalCursor s := by
  constructor
  · intro hs
    have hvalid := decodeCursor_some h
    have hdecode : rawURLDecode s =
        some (layout (Rfc3339.format c.createdAt) (escapeString c.id)) := by
      rw [← hs, Cursor.encode, escapeString_format, rawURLDecode_rawURLEncode]
    obtain ⟨hspells, hwritten⟩ := Json.spells_escapeString hvalid
    rw [decodeCursor_layout hdecode (spells_format c.createdAt) hspells] at h
    obtain ⟨t, hparse, ht⟩ := bind_eq_some_iff.mp h
    split_ifs at ht
    have htime : t = c.createdAt := congrArg Cursor.createdAt (some.inj ht)
    rw [htime] at hparse
    refine ⟨(rawURLEncode_eq_iff hdecode).mp ?_, _, _, hdecode, fun b hb => Rfc3339.mem_format hb,
      (Rfc3339.format_eq_iff hparse).mp rfl, hwritten⟩
    rw [← hs, Cursor.encode, escapeString_format]
  · rintro ⟨htight, time, id, hdecode, hchars, htime, hid⟩
    obtain ⟨text, hspells, htext⟩ := hid.spells
    rw [decodeCursor_layout hdecode (spells_time hchars) hspells] at h
    obtain ⟨t, hparse, hc⟩ := bind_eq_some_iff.mp h
    split_ifs at hc
    obtain rfl := some.inj hc
    unfold Cursor.encode
    rw [escapeString_format, (Rfc3339.format_eq_iff hparse).mpr htime, htext]
    exact (rawURLEncode_eq_iff hdecode).mpr htight

deriving instance DecidableEq for Cursor

theorem encode_decodeCursor_newYear :
    decodeCursor (Cursor.encode ⟨1704067200000000000, utf8 "ab"⟩) =
        some ⟨1704067200000000000, utf8 "ab"⟩ ∧
      CanonicalCursor (Cursor.encode ⟨1704067200000000000, utf8 "ab"⟩) :=
  ⟨by decide +kernel, (encode_decodeCursor (by decide +kernel)).mp rfl⟩

/-- A cursor with one more member, in capitals, with an offset, with a line break and with spare
bits. -/
def otherSpellings : List Bytes :=
  [rawURLEncode (utf8 "\x7b\"t\":\"2024-01-01T00:00:00Z\",\"i\":\"ab\",\"x\":1\x7d"),
    rawURLEncode (utf8 "\x7b\"T\":\"2024-01-01T00:00:00Z\",\"I\":\"ab\"\x7d"),
    rawURLEncode (utf8 "\x7b\"t\":\"2024-01-01T01:00:00+01:00\",\"i\":\"ab\"\x7d"),
    utf8 "eyJ0IjoiMjAyNC0wMS0wMVQwMDowMDowMFoiLCJpIjoiYWIifQ\n",
    utf8 "eyJ0IjoiMjAyNC0wMS0wMVQwMDowMDowMFoiLCJpIjoiYWIifR"]

/-- They are all taken for the cursor, and none of them is the one that is issued. -/
theorem otherSpellings_taken :
    otherSpellings.map decodeCursor =
        List.replicate 5 (some ⟨1704067200000000000, utf8 "ab"⟩) ∧
      Cursor.encode ⟨1704067200000000000, utf8 "ab"⟩ ∉ otherSpellings := by
  decide +kernel

end GolangBasics.Tasks.Wire
