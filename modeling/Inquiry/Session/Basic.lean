import Inquiry.Kind.Making
import Inquiry.Graph.Basic
import Std.Data.HashMap

/-!
A session: the knowledge graph, the kinds that were recalled from it so far, and the tables that
steer the reading of a request. A name stands for one kind as long as the session lasts.
-/

namespace Inquiry

abbrev TermTable (α : Type) := List (Term × α)

namespace TermTable

def get? (t : TermTable α) (k : Term) : Option α :=
  (t.find? fun e => e.1 == k).map (·.2)

def has (t : TermTable α) (k : Term) : Bool :=
  t.any fun e => e.1 == k

def put (k : Term) (a : α) : TermTable α → TermTable α
  | []          => [(k, a)]
  | (l, b) :: t => if l == k then (l, a) :: t else (l, b) :: put k a t

end TermTable

structure Session where
  -- the serial number of the next term
  next        : Nat := 1
  graph       : Graph := {}
  known       : Std.HashMap String Term := {}
  -- the quantity of numbers and the division of one number by another
  number      : Term := .nothing
  quotient    : Term := .nothing
  -- the variables that stand for an object type when it is asked for
  defaults    : TermTable (List Term) := []
  -- the variable that a set of values belongs to
  preferred   : TermTable Term := []
  -- the relation that is followed first from an object type
  whichWay    : TermTable Term := []
  -- the object type that is meant by a constant of a set of values
  override    : TermTable Term := []
  -- the end of a relation that it is about
  orientation : TermTable Term := []
  -- the variable that orders an object type
  ordering    : TermTable Term := []
  -- the question word of an object type
  pronouns    : TermTable String := []
  designs     : List Term := []
  objectTypes : List Term := []
  -- the number of temporary tables that were named
  tables      : Nat := 0
  -- the number of parts of queries that were made
  parts       : Nat := 0
  deriving Inhabited

abbrev SessionM := ExceptT Failure (StateM Session)

namespace SessionM

def serials (n : Nat) : SessionM Nat :=
  modifyGet fun s => (s.next, { s with next := s.next + n })

def app (op : Op) (args : List Term) : SessionM Term := do
  ofExcept (Term.apply (← serials Op.serials) op args)

def make (spec : KindSpec) : SessionM Term := do
  ofExcept (Term.make (← serials Op.serials) spec)

def runIn (x : SessionM α) (s : Session) : Except Failure α × Session :=
  (ExceptT.run x).run s

end SessionM
end Inquiry
