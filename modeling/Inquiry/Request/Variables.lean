import Inquiry.Request.Keyword
import Inquiry.Request.Path

/-!
The variables and object types that a request asks for, each with the path that leads to it.
-/

namespace Inquiry
namespace Request

open Keyword

def relationClues (r : Request) : Except Failure (List Term) := do
  return (← r.mentions [relation]).map Meaning.asTerm

def pathFrom (r : Request) (v dest : Term) : SessionM Path := do
  let clues ← ofExcept r.relationClues
  SessionM.bestPath (← ofExcept v.source) dest clues []

def pathTo (clues : List Term) (target v : Term) : SessionM Path := do
  let d ← ofExcept v.domain
  let p ← if ← ofExcept (d.isEqualTo target) then pure [] else SessionM.bestPath target d clues []
  return v :: p

def variableOf : Meaning → Except Failure Term
  | .list ms => Meaning.asTerm <$> Sequence.get ms 0
  | m        => .ok m.asTerm

def numericPaths (r : Request) (target : Term) : SessionM (List Path) := do
  let clues ← ofExcept r.relationClues
  (r.places [numeric]).foldlM (fun ps (i : Nat) => do
    let v ← ofExcept do variableOf (← r.meaning i)
    return Path.insert (← pathTo clues target v) ps) []

def categoryPaths (r : Request) (target : Term) : SessionM (List Path) := do
  let clues ← ofExcept r.relationClues
  (r.places [category]).foldlM (fun ps (i : Nat) => do
    let v ← ofExcept (r.meaning i)
    return Path.insert (← pathTo clues target v.asTerm) ps) []

def objectTypePaths (r : Request) (pivot target : Term) : SessionM (List Path) := do
  let clues ← ofExcept r.relationClues
  (r.places [objectType]).foldlM (fun ps (i : Nat) => do
    let o ← ofExcept (r.meaning i)
    if ← ofExcept (o.isEqualTo pivot) then return ps
    if ← ofExcept (o.isEqualTo target) then return ps
    let p ← SessionM.bestPath target o.asTerm clues []
    return if p.isEmpty then ps else Path.insert p ps) []

end Request
end Inquiry
