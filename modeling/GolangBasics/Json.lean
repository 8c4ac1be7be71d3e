import GolangBasics.Runes

/-! JSON as `encoding/json` reads it: the syntax its scanner accepts, and what it makes of a
string. -/
namespace GolangBasics.Json

def unhex (b : UInt8) : Option Nat :=
  if 0x30 ≤ b ∧ b ≤ 0x39 then some (b.toNat - 0x30)
  else if 0x61 ≤ b ∧ b ≤ 0x66 then some (b.toNat - 0x61 + 10)
  else if 0x41 ≤ b ∧ b ≤ 0x46 then some (b.toNat - 0x41 + 10)
  else none

inductive Escape where
  | quote | backslash | slash | backspace | formFeed | newline | carriageReturn | tab
  deriving DecidableEq

def Escape.ofByte (b : UInt8) : Option Escape :=
  if b = 0x22 then some quote
  else if b = 0x5C then some backslash
  else if b = 0x2F then some slash
  else if b = 0x62 then some backspace
  else if b = 0x66 then some formFeed
  else if b = 0x6E then some newline
  else if b = 0x72 then some carriageReturn
  else if b = 0x74 then some tab
  else none

def Escape.byte : Escape → UInt8
  | quote => 0x22
  | backslash => 0x5C
  | slash => 0x2F
  | backspace => 0x08
  | formFeed => 0x0C
  | newline => 0x0A
  | carriageReturn => 0x0D
  | tab => 0x09

/-- What stands between the quotes of a string: bytes, which are no control characters, and
escapes. `unicode` is the code of a `\u` escape. -/
inductive Piece where
  | plain (b : UInt8) (h : 0x20 ≤ b)
  | escape (e : Escape)
  | unicode (code : Nat)
  deriving DecidableEq

/-- The pieces of a string after its opening quote, and what follows the closing one. -/
def scanString : Bytes → Option (List Piece × Bytes)
  | [] => none
  | b :: rest =>
    if b = 0x22 then some ([], rest)
    else if b = 0x5C then
      match rest with
      | [] => none
      | e :: rest =>
        if e = 0x75 then
          match rest with
          | h₁ :: h₂ :: h₃ :: h₄ :: rest => do
            let n₁ ← unhex h₁
            let n₂ ← unhex h₂
            let n₃ ← unhex h₃
            let n₄ ← unhex h₄
            let (pieces, rest) ← scanString rest
            some (.unicode (((n₁ * 16 + n₂) * 16 + n₃) * 16 + n₄) :: pieces, rest)
          | _ => none
        else do
          let esc ← Escape.ofByte e
          let (pieces, rest) ← scanString rest
          some (.escape esc :: pieces, rest)
    else if h : 0x20 ≤ b then do
      let (pieces, rest) ← scanString rest
      some (.plain b h :: pieces, rest)
    else none

def leading : List Piece → Bytes
  | .plain b _ :: rest => b :: leading rest
  | _ => []

/-- `utf16.DecodeRune` of a code and the escape after it, when they are a surrogate pair. -/
def surrogates (code : Nat) : List Piece → Option Nat
  | .unicode low :: _ =>
    if (0xD800 ≤ code ∧ code < 0xDC00) ∧ (0xDC00 ≤ low ∧ low < 0xE000) then
      some (0x10000 + (code - 0xD800) * 0x400 + (low - 0xDC00))
    else none
  | _ => none

/-- The text of a string, after `skip` pieces that belong to an earlier rune. Invalid bytes and
a surrogate without its other half are replaced. -/
def unquoteFrom : Nat → List Piece → Bytes
  | _, [] => []
  | skip + 1, _ :: rest => unquoteFrom skip rest
  | 0, .plain b _ :: rest =>
    let (r, n) := decodeRune (b :: leading rest)
    encodeRune r ++ unquoteFrom (n - 1) rest
  | 0, .escape e :: rest => e.byte :: unquoteFrom 0 rest
  | 0, .unicode code :: rest =>
    match surrogates code rest with
    | some r => encodeRune r ++ unquoteFrom 1 rest
    | none => encodeRune code ++ unquoteFrom 0 rest

def unquote (pieces : List Piece) : Bytes := unquoteFrom 0 pieces

theorem validString_unquoteFrom (skip : Nat) (pieces : List Piece) :
    validString (unquoteFrom skip pieces) = true := by
  induction pieces generalizing skip with
  | nil => cases skip <;> rfl
  | cons piece rest ih =>
    cases skip with
    | succ skip => exact ih skip
    | zero =>
      cases piece with
      | plain b h => simp only [unquoteFrom, validString_encodeRune, ih]
      | escape e =>
        have hascii : e.byte.toNat < 0x80 := by cases e <;> decide
        simp only [unquoteFrom, validString_ascii hascii, ih]
      | unicode code =>
        simp only [unquoteFrom]
        split
        · simp only [validString_encodeRune, ih]
        · simp only [validString_encodeRune, ih]

theorem validString_unquote (pieces : List Piece) : validString (unquote pieces) = true :=
  validString_unquoteFrom 0 pieces

theorem plain_of_mem_take {n : Nat} {pieces : List Piece} (h : n ≤ (leading pieces).length) :
    ∀ x ∈ pieces.take n, ∃ b hb, x = .plain b hb := by
  induction pieces generalizing n with
  | nil => simp
  | cons piece rest ih =>
    cases n with
    | zero => simp
    | succ n =>
      cases piece with
      | plain b hb =>
        intro x hx
        obtain rfl | hx := List.mem_cons.mp hx
        · exact ⟨b, hb, rfl⟩
        · exact ih (Nat.le_of_succ_le_succ h) x hx
      | escape e => simp [leading] at h
      | unicode code => simp [leading] at h

theorem decodeRune_ne_nul {b : UInt8} (h : 0x20 ≤ b) (rest : Bytes) :
    (decodeRune (b :: rest)).1 ≠ 0 ∧ (decodeRune (b :: rest)).2 - 1 ≤ rest.length := by
  have hb : 0x20 ≤ b.toNat := UInt8.le_iff_toNat_le.mp h
  obtain ⟨-, heq⟩ | ⟨-, hr, -, hn, -⟩ := decodeRune_cases b rest
  · rw [heq]
    exact ⟨by simp only; omega, by simp⟩
  · rw [List.length_cons] at hn
    omega

theorem surrogates_some {code r : Nat} {rest : List Piece} (h : surrogates code rest = some r) :
    code ≠ 0 ∧ r ≠ 0 ∧ ∃ low tl, rest = .unicode low :: tl ∧ low ≠ 0 := by
  unfold surrogates at h
  split at h
  · rename_i low tl
    split_ifs at h with hpair
    obtain rfl := Option.some.inj h
    exact ⟨by omega, by omega, low, tl, rfl, by omega⟩
  · cases h

theorem nul_mem_unquoteFrom (skip : Nat) (pieces : List Piece)
    (hskip : ∀ x ∈ pieces.take skip, x ≠ .unicode 0) :
    0 ∈ unquoteFrom skip pieces ↔ .unicode 0 ∈ pieces := by
  induction pieces generalizing skip with
  | nil => cases skip <;> simp [unquoteFrom]
  | cons piece rest ih =>
    cases skip with
    | succ skip =>
      have hpiece : piece ≠ .unicode 0 := hskip piece (by simp)
      have hrest := ih skip fun x hx => hskip x (by simp [hx])
      simp only [unquoteFrom, hrest, List.mem_cons, Ne.symm hpiece, false_or]
    | zero =>
      cases piece with
      | plain b h =>
        obtain ⟨hne, hle⟩ := decodeRune_ne_nul h (leading rest)
        have hrest := ih ((decodeRune (b :: leading rest)).2 - 1) fun x hx => by
          obtain ⟨b', hb', rfl⟩ := plain_of_mem_take hle x hx
          exact Piece.noConfusion
        simp [unquoteFrom, nul_mem_encodeRune, hne, hrest]
      | escape e =>
        have hbyte : e.byte ≠ 0 := by cases e <;> decide
        simp [unquoteFrom, Ne.symm hbyte, ih 0 (by simp)]
      | unicode code =>
        simp only [unquoteFrom]
        split
        · rename_i r hpair
          obtain ⟨hcode, hr, low, tl, rfl, hlow⟩ := surrogates_some hpair
          have hrest := ih 1 (by simpa using hlow)
          simp [nul_mem_encodeRune, hr, hrest, Ne.symm hcode]
        · simp [nul_mem_encodeRune, ih 0 (by simp), eq_comm]

/-- The text of a string has a NUL exactly if one is escaped in it. -/
theorem nul_mem_unquote {pieces : List Piece} : 0 ∈ unquote pieces ↔ .unicode 0 ∈ pieces :=
  nul_mem_unquoteFrom 0 pieces (by simp)

inductive Value where
  | null
  | bool (b : Bool)
  | number (literal : Bytes)
  | string (pieces : List Piece)
  | array (elements : List Value)
  | object (members : List (List Piece × Value))

def isBlank (b : UInt8) : Bool := b = 0x20 || b = 0x09 || b = 0x0D || b = 0x0A

def isDigit (b : UInt8) : Bool := 0x30 ≤ b && b ≤ 0x39

def scanDigits (s : Bytes) : Option (Bytes × Bytes) :=
  match s.span isDigit with
  | ([], _) => none
  | ds => some ds

def scanPart (lead : Bytes) (signed : Bool) (s : Bytes) : Option (Bytes × Bytes) :=
  match s with
  | b :: rest =>
    if lead.contains b then
      match rest with
      | c :: rest' =>
        if signed && (c = 0x2B || c = 0x2D) then
          (scanDigits rest').map fun x => (b :: c :: x.1, x.2)
        else (scanDigits rest).map fun x => (b :: x.1, x.2)
      | [] => none
    else some ([], s)
  | [] => some ([], [])

/-- A number: no leading zeros, and digits on both sides of the point. -/
def scanNumber (s : Bytes) : Option (Bytes × Bytes) := do
  let (sign, s) := if s.head? = some 0x2D then ([0x2D], s.tail) else ([], s)
  let (int, s) ← if s.head? = some 0x30 then some ([0x30], s.tail) else scanDigits s
  let (frac, s) ← scanPart [0x2E] false s
  let (exp, s) ← scanPart [0x65, 0x45] true s
  some (sign ++ int ++ frac ++ exp, s)

def expect (word : String) (v : Value) (s : Bytes) : Option (Value × Bytes) :=
  if (utf8 word).isPrefixOf s then some (v, s.drop (utf8 word).length) else none

def skipBlank (s : Bytes) : Bytes := s.dropWhile isBlank

def maxNestingDepth : Nat := 10000

mutual

/-- A value, with the depth that is left. Each byte of the text takes at most two units of
fuel. -/
def scanValue : Nat → Nat → Bytes → Option (Value × Bytes)
  | 0, _, _ => none
  | fuel + 1, depth, s =>
    match skipBlank s with
    | [] => none
    | b :: rest =>
      if b = 0x22 then (scanString rest).map fun x => (.string x.1, x.2)
      else if b = 0x7B then
        match depth with
        | 0 => none
        | depth + 1 =>
          match skipBlank rest with
          | 0x7D :: rest => some (.object [], rest)
          | rest => (scanMembers fuel depth rest).map fun x => (.object x.1, x.2)
      else if b = 0x5B then
        match depth with
        | 0 => none
        | depth + 1 =>
          match skipBlank rest with
          | 0x5D :: rest => some (.array [], rest)
          | rest => (scanElements fuel depth rest).map fun x => (.array x.1, x.2)
      else if b = 0x74 then expect "true" (.bool true) (b :: rest)
      else if b = 0x66 then expect "false" (.bool false) (b :: rest)
      else if b = 0x6E then expect "null" .null (b :: rest)
      else (scanNumber (b :: rest)).map fun x => (.number x.1, x.2)

def scanElements : Nat → Nat → Bytes → Option (List Value × Bytes)
  | 0, _, _ => none
  | fuel + 1, depth, s => do
    let (v, s) ← scanValue fuel depth s
    match skipBlank s with
    | 0x2C :: s => (scanElements fuel depth s).map fun x => (v :: x.1, x.2)
    | 0x5D :: s => some ([v], s)
    | _ => none

def scanMembers : Nat → Nat → Bytes → Option (List (List Piece × Value) × Bytes)
  | 0, _, _ => none
  | fuel + 1, depth, s =>
    match skipBlank s with
    | 0x22 :: s => do
      let (name, s) ← scanString s
      match skipBlank s with
      | 0x3A :: s =>
        let (v, s) ← scanValue fuel depth s
        match skipBlank s with
        | 0x2C :: s => (scanMembers fuel depth s).map fun x => ((name, v) :: x.1, x.2)
        | 0x7D :: s => some ([(name, v)], s)
        | _ => none
      | _ => none
    | _ => none

end

def parse (s : Bytes) : Option Value := do
  let (v, rest) ← scanValue (2 * s.length + 2) maxNestingDepth s
  if rest.all isBlank then some v else none

def Value.members : Value → Option (List (List Piece × Value))
  | object members => some members
  | null => some []
  | _ => none

def lower (b : UInt8) : UInt8 := if 0x41 ≤ b ∧ b ≤ 0x5A then b + 0x20 else b

/-- The form in which names are compared: without case, where the long s and the Kelvin sign
count as their ASCII letters. Other runes beyond ASCII have no ASCII form. -/
def foldName : Bytes → Bytes
  | 0xC5 :: 0xBF :: rest => 0x73 :: foldName rest
  | 0xE2 :: 0x84 :: 0xAA :: rest => 0x6B :: foldName rest
  | b :: rest => lower b :: foldName rest
  | [] => []

/-- What a field of type `string` is set to: the last value wins, `null` sets nothing, and a
value of another type is an error. -/
def stringField (name : String) (members : List (List Piece × Value)) : Option (List Piece) :=
  members.foldl (fun field m =>
    if foldName (unquote m.1) = utf8 name then
      match m.2 with
      | .string pieces => field.map fun _ => pieces
      | .null => field
      | _ => none
    else field) (some [])

example :
    ((parse (utf8 "\x7b\"t\": [1.5e3, true, \x7b\x7d], \"I\":\"a\\u0000\"\x7d ")).bind
      Value.members).bind (stringField "i") =
      some [.plain 0x61 (by decide), .unicode 0] := by decide +kernel

end GolangBasics.Json
