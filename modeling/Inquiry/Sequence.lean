import Inquiry.Failure

/-!
Places in a list that may be counted from its end, and the lists that such places cut out.
-/

namespace Inquiry
namespace Sequence

def place? (n : Nat) (i : Int) : Option Nat :=
  if 0 ≤ i then
    if i < n then some i.toNat else none
  else if -i ≤ n then some (n - (-i).toNat)
  else none

def at? (xs : List α) (i : Int) : Option α :=
  (place? xs.length i).bind fun k => xs[k]?

def get (xs : List α) (i : Int) : Except Failure α :=
  match at? xs i with
  | some x => .ok x
  | none   => .error .outOfRange

def bound (n : Nat) (i : Int) : Nat :=
  if 0 ≤ i then min i.toNat n else n - (-i).toNat

def slice (xs : List α) (i j : Int) : List α :=
  (xs.take (bound xs.length j)).drop (bound xs.length i)

def insertAt (xs : List α) (i : Int) (x : α) : List α :=
  xs.take (bound xs.length i) ++ x :: xs.drop (bound xs.length i)

def numbered (xs : List α) : List (Nat × α) :=
  xs.zipIdx.map fun (x, i) => (i, x)

end Sequence
end Inquiry
