/-! The tasks service's domain types. -/
namespace GolangBasics.Tasks

/-- `domain.Task`. Times are nanoseconds of the database clock. -/
structure Task where
  id : String
  title : String
  done : Bool
  version : Int
  createdAt : Nat
  deriving DecidableEq, Repr, Inhabited

structure IdempotencyKey where
  key : String
  hash : String
  deriving DecidableEq, Repr

structure Patch where
  title : Option String
  done : Option Bool
  deriving DecidableEq, Repr

def Patch.apply (p : Patch) (t : Task) : Task :=
  let t := match p.title with
    | some title => { t with title := title }
    | none => t
  match p.done with
  | some done => { t with done := done }
  | none => t

end GolangBasics.Tasks
