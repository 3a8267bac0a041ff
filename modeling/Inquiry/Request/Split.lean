import Inquiry.Request.Keyword
import Inquiry.Request.Path

/-!
The object type that the average of a request is taken over, which splits the count of the target.
-/

namespace Inquiry
namespace Request

open Keyword

def possibleSplits (r : Request) (target : Term) (ruledOut : List Term) :
    Except Failure (List Meaning) := do
  return (← r.mentions [objectType]).filter fun m =>
    !(m == .term target) && !ruledOut.any (m == .term ·)

def leadsTo (p d : Term) : Except Failure Bool :=
  match d with
  | .app .. => .ok false
  | _       => do (← d.codomain).isEqualTo p

def tighten (target p split : Term) : SessionM Term := do
  match split with
  | .nothing => return p
  | _ =>
    if ← SessionM.reaches p split then
      if ← SessionM.reaches target p then return p
    return split

def split (r : Request) (target : Term) (ps : List Path) (ruledOut : List Term) :
    SessionM Term := do
  let possible ← ofExcept (r.possibleSplits target ruledOut)
  possible.foldlM (fun s p =>
    ps.flatten.foldlM (fun s d => do
      if ← ofExcept (leadsTo p.asTerm d) then tighten target p.asTerm s else return s) s) .nothing

def firstSplit (r : Request) (target : Term) (ruledOut : List Term) : Except Failure Meaning := do
  return (← r.possibleSplits target ruledOut).head?.getD .nothing

end Request

namespace Term

def leftPaths : List Term → List Path
  | .app _ .composition args _ :: _ :: rest => args :: leftPaths rest
  | .app .. :: _ :: rest => leftPaths rest
  | t :: _ :: rest => [t] :: leftPaths rest
  | [.app _ .composition args _] => [args]
  | [.app ..] => []
  | [t] => [[t]]
  | [] => []

def selectionPaths (breakdown : Term) : Except Failure (List Path) := do
  match breakdown with
  | .nothing => return []
  | .app _ op args _ =>
    let selection ← if op == .inverse then do
        Sequence.get (← (← Sequence.get args 0).args) (-1)
      else pure breakdown
    return leftPaths (← selection.args)
  | _ => throw .absent

end Term

namespace Request

def splitOfConditions (r : Request) (target breakdown : Term) (ruledOut : List Term) :
    SessionM Term := do
  r.split target (← ofExcept breakdown.selectionPaths) ruledOut

end Request
end Inquiry
