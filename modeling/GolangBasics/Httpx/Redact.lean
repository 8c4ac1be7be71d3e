import GolangBasics.Assign
import GolangBasics.Fmt
import GolangBasics.Httpx.RedactUrl

/-! `httpx.Redact`: the copy of a configuration that an operator may see. -/
namespace GolangBasics.Httpx.Redact

def SecretWord.startsAt (w : SecretWord) (cs : List Char) : Bool :=
  let rest := cs.drop w.head.length
  w.head.toList.isPrefixOf cs &&
    (w.tail.toList.isPrefixOf rest ||
      match rest with
      | [] => false
      | c :: rest => w.seps.contains c && w.tail.toList.isPrefixOf rest)

def secretWords : List SecretWord :=
  [{ head := "password" }, { head := "passwd" }, { head := "pwd" }, { head := "secret" },
   { head := "token" }, { head := "api", seps := ['_', '-'], tail := "key" },
   { head := "private", seps := ['_', '.', '-'], tail := "key" }, { head := "credential" },
   { head := "dsn" }, { head := "auth" }, { head := "cert" },
   { head := "key", seps := ['_', '.', '-'], tail := "pem" }, { head := "keystore" },
   { head := "passphrase" }]

def secretFieldName (name : String) : Bool :=
  (name.toList.map foldCase).tails.any fun cs => secretWords.any fun w => w.startsAt cs

/-- What `Redact` reads of a `reflect.StructField`; an absent tag is the empty string. -/
structure Field where
  name : String
  exported : Bool := true
  anonymous : Bool := false
  yaml : String := ""
  json : String := ""
  secret : String := ""

def tagName (tag : String) : String := String.ofList (tag.toList.takeWhile (· ≠ ','))

def Field.hasNameTag (f : Field) : Bool :=
  [f.yaml, f.json].any fun tag => tagName tag ≠ "" ∧ tagName tag ≠ "-"

def Field.fieldName (f : Field) : String :=
  (([f.yaml, f.json].map tagName).find? (· ≠ "")).getD f.name

def Field.isSecret (f : Field) (inherited : Bool) : Bool :=
  if f.secret = "true" then true
  else if f.secret = "false" then false
  else inherited || secretFieldName f.name

/-- The scalars that are neither strings nor durations. A `ref` is a channel, a function or
an unsafe pointer; floats are their bits. -/
inductive Scalar where
  | bool (b : Bool)
  | int (n : Int)
  | uint (n : Nat)
  | float (bits : UInt64)
  | complex (re im : UInt64)
  | ref (address : Nat)
  deriving DecidableEq

/-- Both zeros are zero, whatever their sign. -/
def floatIsZero (bits : UInt64) : Bool := bits = 0 ∨ bits = 0x8000000000000000

def Scalar.isZero : Scalar → Bool
  | bool b => !b
  | int n => n = 0
  | uint n => n = 0
  | float bits => floatIsZero bits
  | complex re im => floatIsZero re && floatIsZero im
  | ref address => address = 0

/-- A map key by what `keyString` makes of it: a string, the text of a `Stringer`, or what
`fmt.Sprint` prints. -/
inductive Key where
  | string (s : String)
  | stringer (text : String)
  | other (text : String)

def Key.keyString : Key → String
  | string s => s
  | stringer text => text
  | other text => text

mutual

/-- A Go value under reflection. `null` is a nil pointer, interface, slice or map, `ref` a
pointer or an interface, `list` a slice or an array, and `bytes` one of `uint8`, an array
if it is `fixed`. -/
inductive Value where
  | null
  | ref (target : Value)
  | time (instant : Int)
  | struct (fields : Fields)
  | bytes (type : String) (fixed : Bool) (data : List UInt8)
  | list (elems : Values)
  | map (entries : Entries)
  | string (s : Bytes)
  | duration (nanos : Int)
  | scalar (type : String) (x : Scalar)

inductive Fields where
  | nil
  | cons (f : Field) (v : Value) (rest : Fields)

inductive Values where
  | nil
  | cons (v : Value) (rest : Values)

inductive Entries where
  | nil
  | cons (k : Key) (v : Value) (rest : Entries)

end

inductive Out where
  | null
  | time (instant : Int)
  | string (s : Bytes)
  | bytes (type : String) (data : List UInt8)
  | scalar (type : String) (x : Scalar)
  | list (elems : List Out)
  | object (fields : List (String × Out))

def Value.isStruct : Value → Bool
  | .struct _ | .time _ => true
  | _ => false

def Field.skipped (f : Field) : Bool := !f.exported || f.fieldName = "-"

def Field.inlined (f : Field) (v : Value) : Bool := f.anonymous && v.isStruct && !f.hasNameTag

mutual

def redactValue (secret : Bool) : Value → Out
  | .null => .null
  | .ref v => redactValue secret v
  | .time t => .time t
  | .struct fs => .object (Assign.toMap (redactStruct secret fs))
  | .bytes type _ data =>
    if secret ∧ data.length > 0 then .string mark else .bytes type data
  | .list vs => .list (redactElems secret vs)
  | .map es => .object (Assign.toMap (redactEntries secret es))
  | .string s =>
    if secret then
      if s = [] then .string [] else .string mark
    else .string (redactURL s)
  | .duration n => .string (durationString n)
  | .scalar type x => if secret ∧ !x.isZero then .string mark else .scalar type x

def redactStruct (inherited : Bool) : Fields → List (String × Out)
  | .nil => []
  | .cons f v rest =>
    (if f.skipped then []
    else if f.inlined v then redactInlined inherited v
    else [(f.fieldName, redactValue (f.isSecret inherited) v)]) ++ redactStruct inherited rest

def redactInlined (inherited : Bool) : Value → List (String × Out)
  | .struct fs => Assign.toMap (redactStruct inherited fs)
  | _ => []

def redactElems (secret : Bool) : Values → List Out
  | .nil => []
  | .cons v rest => redactValue secret v :: redactElems secret rest

def redactEntries (secret : Bool) : Entries → List (String × Out)
  | .nil => []
  | .cons k v rest =>
    (k.keyString, redactValue (secret || secretFieldName k.keyString) v) ::
      redactEntries secret rest

end

def redact : Option Value → Out
  | none => .null
  | some v => redactValue false v

end GolangBasics.Httpx.Redact
