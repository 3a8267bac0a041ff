/-!
Finite maps as lists of entries, in the order in which their keys came.
-/

namespace Inquiry

abbrev Assoc (κ α : Type) := List (κ × α)

namespace Assoc

variable {κ α : Type} [BEq κ]

def get? (m : Assoc κ α) (k : κ) : Option α :=
  (m.find? fun e => e.1 == k).map (·.2)

def has (m : Assoc κ α) (k : κ) : Bool :=
  m.any fun e => e.1 == k

def keys (m : Assoc κ α) : List κ :=
  m.map (·.1)

def put (k : κ) (a : α) : Assoc κ α → Assoc κ α
  | []          => [(k, a)]
  | (l, b) :: m => if l == k then (l, a) :: m else (l, b) :: put k a m

def alter (m : Assoc κ α) (k : κ) (d : α) (f : α → α) : Assoc κ α :=
  put k (f ((get? m k).getD d)) m

end Assoc
end Inquiry
