/-!
Values of the JSON format. The fields of an object keep the order in which they were given.
-/

namespace Inquiry

inductive Json where
  | null
  | bool (b : Bool)
  | int (n : Int)
  -- a number with a fraction or an exponent, by its text
  | decimal (text : String)
  | str (s : String)
  | arr (xs : List Json)
  | obj (fields : List (String × Json))
  deriving Inhabited

namespace Json

def setField (name : String) (v : Json) : List (String × Json) → List (String × Json)
  | []           => [(name, v)]
  | (k, w) :: fs => if k == name then (k, v) :: fs else (k, w) :: setField name v fs

def get? (name : String) : Json → Option Json
  | obj fields => fields.lookup name
  | _          => none

def str? : Json → Option String
  | str s => some s
  | _     => none

def int? : Json → Option Int
  | int n  => some n
  | bool b => some (if b then 1 else 0)
  | _      => none

def bool? : Json → Option Bool
  | bool b => some b
  | _      => none

def arr? : Json → Option (List Json)
  | arr xs => some xs
  | _      => none

def ofOption (f : α → Json) : Option α → Json
  | none   => null
  | some a => f a

/-! Fields of an object, where a field that is missing or of another sort has a value of its own -/

def field (j : Json) (name : String) : Json :=
  (j.get? name).getD null

def text (j : Json) (name : String) : String :=
  ((j.get? name).bind str?).getD ""

def number (j : Json) (name : String) : Int :=
  ((j.get? name).bind int?).getD 0

def flag (j : Json) (name : String) (d : Bool) : Bool :=
  ((j.get? name).bind bool?).getD d

def elems (j : Json) (name : String) : List Json :=
  (j.field name).arr?.getD []

def strings (j : Json) : List String :=
  (j.arr?.getD []).filterMap str?

end Json
end Inquiry
