import Inquiry.Term.Printing

/-!
The ways in which a request can fail, by cause. Only failures that speak about the request itself
have a wording of their own.
-/

namespace Inquiry

inductive Failure where
  -- something is asked of an absent or unsuitable object
  | absent
  | mistyped
  | outOfRange
  | noKey
  | badValue
  -- a name that stands for nothing, and one that has no value yet
  | undefinedName
  | unassigned
  | divisionByZero
  | malformedJson
  | malformedXml
  | invalidApplication (op : Op) (args : List Term)
  | invalidGap (name : String)
  | invalidTerm (role : String)
  | invalidKind (sort : Option TermSort)
  | unknownSort
  | mixedProjections
  | unanswered
  deriving Inhabited

namespace Failure

def message? : Failure → Option String
  | invalidApplication op args =>
    some ("Invalid arguments in application of: " ++ op.label ++ "args: " ++ Term.printedTuple args)
  | invalidGap name =>
    some ("Invalid type argument in the construction of a gap of kind 'element': " ++ name)
  | invalidTerm role => some ("Invalid construction of term: " ++ role)
  | invalidKind sort => sort.map fun s => "Invalid construction of element or type: " ++ s.label
  | unknownSort =>
    some "Sort of kind not known, see farseer.graphdb.dbconfig for list of known types and elements"
  | mixedProjections => some "Product contains mixture of projections and other stuff"
  | _ => none

end Failure
end Inquiry
