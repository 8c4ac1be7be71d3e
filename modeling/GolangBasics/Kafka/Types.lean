import GolangBasics.Errors

/-! Records and positions of `libs/kafka`. Offsets are unbounded integers here: a
broker never assigns the largest `int64`, so one past a record does not wrap. -/
namespace GolangBasics.Kafka

structure TopicPartition where
  topic : String
  partition : Int
  deriving DecidableEq, Repr

structure Offset where
  tp : TopicPartition
  next : Int
  deriving DecidableEq, Repr

structure Header where
  key : String
  value : Bytes
  deriving DecidableEq, Repr

structure Message where
  topic : String
  key : Bytes
  value : Bytes
  partition : Int
  offset : Int
  headers : List Header
  timestamp : Int
  attempt : Nat
  deriving DecidableEq, Repr

def Message.header (m : Message) (key : String) : Option Bytes :=
  (m.headers.find? fun h => h.key = key).map Header.value

def Message.tp (m : Message) : TopicPartition := ⟨m.topic, m.partition⟩

theorem mem_foldl_insert {p : TopicPartition} (parts owned : List TopicPartition) :
    p ∈ parts.foldl (fun owned p => owned.insert p) owned ↔ p ∈ parts ∨ p ∈ owned := by
  induction parts generalizing owned with
  | nil => simp
  | cons q parts ih =>
    rw [List.foldl_cons, ih, List.mem_insert_iff, List.mem_cons, or_left_comm, or_assoc]

/-- A group change as a driver reports it. A Go slice of partitions may be nil, which
`none` stands for. -/
inductive Rebalance where
  | assigned (parts : Option (List TopicPartition))
  | revoked (parts : Option (List TopicPartition))
  | lost (parts : Option (List TopicPartition))
  deriving DecidableEq, Repr

def Rebalance.parts : Rebalance → Option (List TopicPartition)
  | .assigned parts | .revoked parts | .lost parts => parts

end GolangBasics.Kafka
