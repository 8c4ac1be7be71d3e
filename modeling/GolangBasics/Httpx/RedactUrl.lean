import GolangBasics.Url.Parse
import Mathlib.Data.List.Dedup
import Mathlib.Data.List.Sort

/-! `redactURL`: what an operator sees of a URL and of a keyword DSN. -/
namespace GolangBasics.Httpx.Redact
open List
open Strings (cutLast joined)
open Url (URL Userinfo)

def redactedValue : String := "[redacted]"

/-- The simple case folding of Go's `(?i)` on the letters of the patterns: besides the upper
case, the long s and the Kelvin sign. -/
def foldCase (c : Char) : Char :=
  if c.toNat = 0x17F then 's' else if c.toNat = 0x212A then 'k' else c.toLower

/-- `head[seps]?tail`, an alternative of the pattern. -/
structure SecretWord where
  head : String
  seps : List Char := []
  tail : String := ""

def mark : Bytes := utf8 redactedValue

/-- `rawUserinfo`: what its group matches and what follows the match. The first two parts of the
pattern end where a byte stands that they do not take, and the last one goes to the last `@` of
the line. -/
def rawUserinfo (s : Bytes) : Option (Bytes × Bytes) :=
  let (scheme, rest) := s.span fun b => !(utf8 ":/?#").contains b
  if scheme = [] ∨ ¬ (utf8 "://").isPrefixOf rest then none
  else
    let (user, rest) := (rest.drop 3).span fun b => !(utf8 ":@/?#").contains b
    if rest.head? ≠ some 0x3A then none
    else
      let (line, lines) := (rest.drop 1).span (· ≠ 0x0A)
      (cutLast 0x40 line).map fun (_, after) => (scheme ++ utf8 "://" ++ user, after ++ lines)

def SecretWord.is (w : SecretWord) (cs : List Char) : Bool :=
  cs = w.head.toList ++ w.tail.toList ||
    w.seps.any fun sep => cs = w.head.toList ++ sep :: w.tail.toList

def secretParams : List SecretWord :=
  [{ head := "password" }, { head := "passwd" }, { head := "pwd" }, { head := "secret" },
   { head := "token" }, { head := "api", seps := ['_', '-'], tail := "key" },
   { head := "private", seps := ['_', '-'], tail := "key" }, { head := "credential" },
   { head := "sslkey" }, { head := "auth" }]

/-- `secretParam.MatchString`: one line that ends in a secret word. -/
def secretParam (key : Bytes) : Bool :=
  let cs := (runes key).map fun r => foldCase (Char.ofNat r.1)
  !cs.contains '\n' && cs.tails.any fun tail => secretParams.any fun w => w.is tail

def queryEscape (s : Bytes) : Bytes :=
  s.flatMap fun b => if b = 0x20 then [0x2B] else if Url.isUnreserved b then [b] else Url.percent b

def sortedKeys (q : List (Bytes × Bytes)) : List Bytes :=
  (q.map Prod.fst).dedup.insertionSort (· ≤ ·)

def shownValues (q : List (Bytes × Bytes)) (key : Bytes) : List Bytes :=
  if secretParam key then [mark] else (q.filter fun x => x.1 = key).map Prod.snd

def shownPairs (q : List (Bytes × Bytes)) : List (Bytes × Bytes) :=
  (sortedKeys q).flatMap fun key => (shownValues q key).map fun value => (key, value)

def encodePairs (q : List (Bytes × Bytes)) : Bytes :=
  joined 0x26 (q.map fun (key, value) => queryEscape key ++ 0x3D :: queryEscape value)

def redactQuery (raw : Bytes) : Bytes :=
  if (Url.query raw).any fun x => secretParam x.1 then encodePairs (shownPairs (Url.query raw))
  else raw

def maskUser (u : Userinfo) : Userinfo :=
  match u.password with
  | some _ => ⟨u.username, some (utf8 "xxxxx")⟩
  | none => u

def isBlank (b : UInt8) : Bool := [0x09, 0x0A, 0x0C, 0x0D, 0x20].contains b

def isWord (b : UInt8) : Bool := Url.isAlphanumeric b || b = 0x5F

/-- What follows a letter in either case; the long s and the Kelvin sign count as letters. -/
def afterLetter (c : UInt8) : Bytes → Option Bytes
  | [] => none
  | b :: rest =>
    if Url.lowerByte b = c then some rest
    else if c = 0x73 ∧ (utf8 "\u017f").isPrefixOf (b :: rest) then some (rest.drop 1)
    else if c = 0x6B ∧ (utf8 "\u212a").isPrefixOf (b :: rest) then some (rest.drop 2)
    else none

def afterWord : Bytes → Bytes → Option Bytes
  | [], s => some s
  | c :: word, s => (afterLetter c s).bind (afterWord word)

def afterQuoted : Bytes → Option Bytes
  | [] => none
  | b :: rest =>
    if b = 0x27 then some rest
    else if b = 0x5C then
      match rest with
      | c :: rest => if c = 0x0A then none else afterQuoted rest
      | [] => none
    else afterQuoted rest

/-- What follows a value: a quoted one if there is a quote that closes it, and else everything
up to a blank. -/
def afterValue (s : Bytes) : Option Bytes :=
  match (if s.head? = some 0x27 then afterQuoted (s.drop 1) else none) with
  | some rest => some rest
  | none => if s.head?.any fun b => !isBlank b then some (s.dropWhile fun b => !isBlank b) else none

def dsnKeywords : List String := ["password", "passwd", "pwd", "sslpassword"]

/-- A match of `dsnPair` at the front of a text, behind the byte before it: what its first group
matches and what follows the match. -/
def dsnPairAt (prev : Option UInt8) (s : Bytes) : Option (Bytes × Bytes) :=
  if prev.any isWord = s.head?.any isWord then none
  else dsnKeywords.findSome? fun word => do
    let rest ← afterWord (utf8 word) s
    if rest.head? = some 0x3D then
      let after ← afterValue (rest.drop 1)
      some (s.take (s.length - rest.length), after)
    else none

/-- `dsnPair.ReplaceAllString`, after `skip` bytes that belong to a match. -/
def replaceDsnFrom : Nat → Option UInt8 → Bytes → Bytes
  | _, _, [] => []
  | skip + 1, _, b :: rest => replaceDsnFrom skip (some b) rest
  | 0, prev, b :: rest =>
    match dsnPairAt prev (b :: rest) with
    | some (keyword, after) =>
      keyword ++ 0x3D :: mark ++ replaceDsnFrom (rest.length - after.length) (some b) rest
    | none => b :: replaceDsnFrom 0 (some b) rest

def replaceDsn (s : Bytes) : Bytes := replaceDsnFrom 0 none s

def redactURL (s : Bytes) : Bytes :=
  if utf8 "://" <:+: s then
    match Url.parse s with
    | some u =>
      if u.user ≠ none ∨ u.rawQuery ≠ [] then
        ({ u with user := u.user.map maskUser, rawQuery := redactQuery u.rawQuery } : URL).string
      else s
    | none =>
      match rawUserinfo s with
      | some (group, after) => group ++ utf8 ":xxxxx@" ++ after
      | none => s
  else if 0x3D ∈ s then replaceDsn s
  else s

theorem mem_sortedKeys {q : List (Bytes × Bytes)} {key : Bytes} :
    key ∈ sortedKeys q ↔ key ∈ q.map Prod.fst := by
  unfold sortedKeys
  rw [mem_insertionSort, mem_dedup]

theorem redactQuery_ne_nil {raw : Bytes} (h : raw ≠ []) : redactQuery raw ≠ [] := by
  unfold redactQuery
  split_ifs with hsecret
  · obtain ⟨x, hx, hkey⟩ := any_eq_true.mp hsecret
    have hmem : (x.1, mark) ∈ shownPairs (Url.query raw) := by
      refine mem_flatMap.mpr ⟨x.1, mem_sortedKeys.mpr (mem_map_of_mem hx), ?_⟩
      rw [shownValues, if_pos hkey]
      exact mem_singleton_self _
    refine Strings.joined_ne_nil ?_ ?_
    · exact ne_nil_of_mem (mem_map_of_mem hmem)
    · intro t ht
      obtain ⟨y, -, rfl⟩ := mem_map.mp ht
      exact append_ne_nil_of_right_ne_nil _ (cons_ne_nil _ _)
  · exact h

section
variable {s : Bytes} (hurl : utf8 "://" <:+: s)
include hurl

theorem redactURL_parsed {u : URL} (hparse : Url.parse s = some u) : redactURL s =
    if u.user ≠ none ∨ u.rawQuery ≠ [] then
      ({ u with user := u.user.map maskUser, rawQuery := redactQuery u.rawQuery } : URL).string
    else s := by
  unfold redactURL
  rw [if_pos hurl, hparse]

theorem redactURL_refused (hparse : Url.parse s = none) : redactURL s =
    match rawUserinfo s with
    | some (group, after) => group ++ utf8 ":xxxxx@" ++ after
    | none => s := by
  unfold redactURL
  rw [if_pos hurl, hparse]

end

end GolangBasics.Httpx.Redact
