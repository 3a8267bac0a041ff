import Inquiry.Assoc
import Inquiry.Request.Keyword
import Inquiry.Request.Path

/-!
Dimensions: the types by which the answer to a request is broken down, and the paths to them.
-/

namespace Inquiry
namespace Request

open Keyword

def connecting : List String := [objectType, relation, category, all, prep, unknown]

def announcement (ks : List String) (i : Nat) : Option Nat :=
  ([[per], [prep, all], [prep, objectType]].filterMap fun p => find? p 0 i ks true).min?

def row (ks : List String) (j : Nat) : Assoc Nat Nat × Nat :=
  if h : j < ks.length then
    if connecting.contains ks[j] then
      let led (k : String) := matchAt [k, prep, relation] 0 j ks true == some j
      if led objectType || led category then
        let (ds, n) := row ks (j + 3)
        ((j, j + 2) :: ds, n)
      else
        let (ds, n) := row ks (j + 1)
        if [objectType, category, relation].contains ks[j] then ((j, j) :: ds, n) else (ds, n)
    else ([], j)
  else ([], j)
termination_by ks.length - j

def rows (ks : List String) (i : Nat) : Assoc Nat Nat :=
  if i < ks.length then
    match announcement ks i with
    | none   => []
    | some o =>
      let (ds, j) := row ks (o + 1)
      ds ++ rows ks (max j (i + 1))
  else []
termination_by ks.length - i

def dimensionEnd (r : Request) (i led : Nat) : Except Failure Meaning := do
  let k ← r.keyword i
  if k == category then return .term (← (← r.meaning i).goal)
  else if k == relation then
    if led != i then r.meaning led else return .term (← (← r.meaning i).goal)
  else r.meaning i

def dimensions (r : Request) (pivot target : Term) : SessionM (Assoc Nat Nat) := do
  (rows r.keywords 0).filterM fun (i, led) => do
    let d ← ofExcept (r.dimensionEnd i led)
    if ← ofExcept (d.isEqualTo pivot) then return false
    if ← ofExcept (d.isEqualTo target) then return false
    return !(← SessionM.reaches d.asTerm target)

def sharedClues (r : Request) (target : Term) (dims : Assoc Nat Nat) :
    Except Failure (List Meaning) := do
  for (i, _) in dims do
    let m ← r.meaning i
    if (← r.keyword i) != objectType then discard m.goal
  let ms ← r.mentions [objectType]
  return ms.foldl (fun clues m => if clues.contains m then clues else clues ++ [m]) [.term target]

end Request

namespace Path

def dropPostfixes (p : Path) (ps : List Path) (i : Nat) : List Path × Bool :=
  if h : i < ps.length then
    if isPostfix p ps[i] then (ps, false)
    else if isPostfix ps[i] p then dropPostfixes p (ps.eraseP (· == ps[i])) (i + 1)
    else dropPostfixes p ps (i + 1)
  else (ps, true)
termination_by ps.length - i
decreasing_by
  · have := List.length_eraseP_le (p := (· == ps[i])) (l := ps); omega
  · omega

def insertWithoutPostfixes (p : Path) (ps : List Path) : List Path :=
  match dropPostfixes p ps 0 with
  | (ps', true)  => insert p ps'
  | (ps', false) => ps'

def extend : Path → SessionM Path
  | [] => return []
  | t :: ts => do
    match t with
    | .app .. => return t :: ts
    | _ =>
      if t.isVariable then return t :: ts
      match (← get).defaults.get? (← ofExcept t.goal) with
      | some vs => return (← SessionM.pair vs) :: t :: ts
      | none    => return t :: ts

end Path

namespace Request

open Keyword

-- What is found while the dimensions are gone through.
structure DimensionPaths where
  clues : List Meaning
  paths : List Path := []
  at_   : Assoc Nat Path := []

def dimensionHint (hints : Assoc Nat Path) (i : Nat) : Path :=
  match hints.get? i with
  | some (t :: ts) => if t.isVariable then ts else t :: ts
  | _              => []

def addDimension (r : Request) (pivot ignored : Term) (hints : Assoc Nat Path)
    (found : DimensionPaths) (dim : Nat × Nat) : SessionM DimensionPaths := do
  let (i, led) := dim
  let m ← ofExcept (r.meaning i)
  let leading ← if i != led then (do return [← ofExcept (r.meaning led)]) else pure []
  let clues := found.clues ++ leading
  let (dest, clues) ← do
    if (← ofExcept (r.keyword i)) == objectType then pure (m, clues)
    else pure (Meaning.term (← ofExcept m.goal), clues ++ [m])
  if dest == .term ignored then return { found with clues }
  let p ← SessionM.bestPath pivot dest.asTerm (clues.map Meaning.asTerm) (dimensionHint hints i)
  return { clues, paths := Path.insertWithoutPostfixes p found.paths, at_ := found.at_.put i p }

def dimensionPaths (r : Request) (pivot target ignored : Term) (hints : Assoc Nat Path) :
    SessionM (List Path × Assoc Nat Path) := do
  let dims ← r.dimensions pivot target
  let clues ← ofExcept (r.sharedClues target dims)
  let found ← dims.foldlM (r.addDimension pivot ignored hints) { clues }
  return (found.paths, found.at_)

end Request
end Inquiry
