/-! Go error values: the sentinels of the packages, and what `fmt.Errorf` with `%w`,
`errors.Join`, `kafka.Permanent` and `kafka.NewSendError` build from them. -/
namespace GolangBasics

/-- A Go string or byte slice, byte by byte. -/
abbrev Bytes := List UInt8

instance : LawfulBEq Bytes := List.instLawfulBEq

def utf8 (s : String) : Bytes := s.toList.flatMap String.utf8EncodeChar

def quoted (s : String) : String := "\"" ++ s ++ "\""

/-- Errors that `errors.Is` finds by identity. -/
inductive Sentinel where
  | canceled | deadlineExceeded
  | clientClosed | clientFailed | draining
  | notFound | versionMismatch | idempotencyKeyReused | replay
  deriving DecidableEq, Repr

def Sentinel.text : Sentinel → String
  | canceled => "context canceled"
  | deadlineExceeded => "context deadline exceeded"
  | clientClosed => "kafka: client closed"
  | clientFailed => "kafka: client failed"
  | draining => "kafka: consumer draining"
  | notFound => "task not found"
  | versionMismatch => "task version does not match"
  | idempotencyKeyReused => "idempotency key was already used for a different request"
  | replay => "store: idempotent replay"

inductive SendKind where
  | queueFull | unavailable | notProvisioned | fatal | rejected | unknown
  deriving DecidableEq, Repr

def SendKind.text : SendKind → String
  | queueFull => "queue_full"
  | unavailable => "unavailable"
  | notProvisioned => "not_provisioned"
  | fatal => "fatal"
  | rejected => "rejected"
  | unknown => "unknown"

/-- `wrap` is `Errorf` with one `%w` at the end, `pair` is `Errorf("%w: %w")` or
`errors.Join` of two, told apart by the separator. -/
inductive Err where
  | sentinel (s : Sentinel)
  | new (text : Bytes)
  | wrap (before : String) (cause : Err)
  | pair (first : Err) (sep : String) (second : Err)
  | send (kind : SendKind) (retryable : Bool) (code : Int) (cause : Err)
  | permanent (cause : Err)
  deriving DecidableEq

namespace Err

def text : Err → Bytes
  | sentinel s => utf8 s.text
  | new t => t
  | wrap before cause => utf8 before ++ cause.text
  | pair first sep second => first.text ++ utf8 sep ++ second.text
  | send kind _ _ cause => utf8 ("kafka send failed (" ++ kind.text ++ "): ") ++ cause.text
  | permanent cause => cause.text

def is (s : Sentinel) : Err → Bool
  | sentinel t => t = s
  | new _ => false
  | wrap _ cause => cause.is s
  | pair first _ second => first.is s || second.is s
  | send _ _ _ cause => cause.is s
  | permanent cause => cause.is s

def isPermanent : Err → Bool
  | permanent _ => true
  | wrap _ cause => cause.isPermanent
  | pair first _ second => first.isPermanent || second.isPermanent
  | send _ _ _ cause => cause.isPermanent
  | _ => false

/-- `kafka.Rejected`: the first `*SendError` of the chain decides. -/
def sendRetryable? : Err → Option Bool
  | send _ retryable _ _ => some retryable
  | wrap _ cause => cause.sendRetryable?
  | pair first _ second => first.sendRetryable?.orElse fun _ => second.sendRetryable?
  | permanent cause => cause.sendRetryable?
  | _ => none

def rejected (e : Err) : Bool := e.sendRetryable? = some false

def join : List Err → Option Err
  | [] => none
  | e :: es => some (es.foldl (fun acc e => .pair acc "\n" e) e)

end Err

/-- `kafka.NewSendError`: a spent or cancelled context is never the record's fault. -/
def newSendError (kind : SendKind) (code : Int) (err : Err) : Err :=
  let kind := if err.is .deadlineExceeded || err.is .canceled then .unavailable else kind
  .send kind (kind ≠ .rejected) code err

end GolangBasics
