import Inquiry.Failure
import Inquiry.Term.Equality

/-!
Which arguments an operation takes, and the functional type of the element that it builds.
-/

namespace Inquiry
namespace Term

def role (t : Term) : Except Failure Role :=
  match t.role? with
  | some r => .ok r
  | none   => .error .absent

def hasRole (r : Role) (t : Term) : Except Failure Bool :=
  (· == r) <$> t.role

def args : Term → Except Failure (List Term)
  | app _ _ args _ => .ok args
  | _              => .error .absent

def typeArg (i : Nat) (t : Term) : Except Failure Term :=
  match t.type? with
  | none => .error .absent
  | some ty => do
    match (← ty.args)[i]? with
    | some u => .ok u
    | none   => .error .outOfRange

def dom (t : Term) : Except Failure Term :=
  t.typeArg 0

def cod (t : Term) : Except Failure Term :=
  t.typeArg 1

def domList (t : Term) : Except Failure (List Term) := do
  match ← t.dom with
  | app _ .cartesianProduct args _ => .ok args
  | d                              => .ok [d]

def consecutive : List Term → Except Failure Bool
  | t :: u :: rest => do
    if (← t.dom).equals (← u.cod) then consecutive (u :: rest) else .ok false
  | _ => .ok true

def commonDomain (ts : List Term) : Except Failure Bool := do
  match ts with
  | [] => .ok true
  | t :: _ =>
    let d ← t.dom
    ts.allM fun u => do
      if ← u.hasRole .element then return (← u.dom).equals d else return false

def pairedCodomains (ts : List Term) : Except Failure Bool :=
  ts.allM fun t => do
    let i := ts.findIdx (· == t)
    if i % 2 == 0 then
      match ts[i + 1]? with
      | some u => return (← t.cod).equals (← u.cod)
      | none   => .error .outOfRange
    else return true

def isPositionIn (n : Nat) (t : Term) : Bool :=
  match t.position? with
  | some k => 1 ≤ k && k ≤ n
  | none   => false

end Term

open Term

namespace Op

def admits : Op → List Term → Except Failure Bool
  | projection, ts =>
    if ts.length < 3 then .ok false
    else do
      if ← ts.dropLast.allM (hasRole .type) then
        return ts.getLast?.any (isPositionIn (ts.length - 1))
      else return false
  | composition, ts =>
    if ts.length < 2 then .ok false
    else do
      if ← ts.allM (hasRole .element) then consecutive ts else return false
  | product, ts => if ts.length < 2 then .ok false else commonDomain ts
  | cartesianProduct, ts => if ts.length < 2 then .ok false else ts.allM (hasRole .type)
  | inclusion, ts | selection, ts =>
    if ts.length < 2 || ts.length % 2 != 0 then .ok false
    else do
      if ← commonDomain ts then pairedCodomains ts else return false
  | inverse, ts | range, ts =>
    match ts with
    | [t] => t.hasRole .element
    | _   => .ok false
  | aggregation, ts =>
    match ts with
    | [v, w] => do
      if ← [v, w].allM (hasRole .element) then return (← v.dom).equals (← w.dom) else return false
    | _ => .ok false
  | functionalType, ts =>
    match ts with
    | [d, c] => [d, c].allM (hasRole .type)
    | _      => .ok false

def form (n : Nat) (op : Op) (ts : List Term) : Except Failure Term := do
  if ← op.admits ts then .ok (.app n op ts none) else .error (.invalidApplication op ts)

def resultType (n : Nat) : Op → List Term → Except Failure (Option Term)
  | projection, ts => do
    let whole ← cartesianProduct.form n ts.dropLast
    match ts.getLast?.bind position? with
    | some k =>
      match ts[k.toNat - 1]? with
      | some part => some <$> functionalType.form (n + 1) [whole, part]
      | none      => .error .outOfRange
    | none => .error .mistyped
  | composition, ts =>
    match ts.head?, ts.getLast? with
    | some first, some last => do
      let d ← last.dom
      let c ← first.cod
      some <$> functionalType.form n [d, c]
    | _, _ => .error .outOfRange
  | product, ts =>
    match ts with
    | t :: _ => do
      let whole ← cartesianProduct.form n (← ts.mapM cod)
      let d ← t.dom
      some <$> functionalType.form (n + 1) [d, whole]
    | [] => .error .outOfRange
  | inclusion, ts =>
    match ts with
    | t :: _ => do
      let part ← selection.form n ts
      let d ← t.dom
      some <$> functionalType.form (n + 1) [part, d]
    | [] => .error .outOfRange
  | inverse, ts =>
    match ts with
    | t :: _ => do
      let image ← range.form n ts
      let c ← t.cod
      some <$> functionalType.form (n + 1) [image, c]
    | [] => .error .outOfRange
  | aggregation, ts =>
    match ts with
    | v :: w :: _ => do
      let d ← w.cod
      let c ← v.cod
      some <$> functionalType.form n [d, c]
    | _ => .error .outOfRange
  | cartesianProduct, _ | selection, _ | functionalType, _ | range, _ => .ok none

def serials : Nat := 3

end Op

namespace Term

def apply (n : Nat) (op : Op) (ts : List Term) : Except Failure Term := do
  if ← op.admits ts then return app n op ts (← op.resultType (n + 1) ts)
  else .error (.invalidApplication op ts)

def returnType (n : Nat) : Term → Except Failure (Option Term)
  | app _ op ts _ => op.resultType n ts
  | kind _ ty ..  => .ok ty
  | gap _ ty      => .ok ty
  | _             => .error .absent

end Term
end Inquiry
