import Inquiry.Request.Condition
import Inquiry.Request.Split
import Inquiry.Request.Target
import Inquiry.Request.Variables

/-!
The interpretation of a request as a term. A request belongs to one of eleven classes:

1. a list of objects with their variables;
2. a count, and 3. a total, of objects, possibly broken down;
4. an average of a variable, and 5. an average count over another object type;
6. a ranking by the variable that orders an object type;
7. to 9. a ranking by a count, a total or an average of a variable;
10. a ranking by a variable itself, and 11. a ranking by an average count.

A ranking also tells the term that it is sorted by and the direction.
-/

namespace Inquiry

inductive Interpretation where
  | single (t : Term)
  -- the request may have been added to
  | ranking (t key : Term) (order : String) (request : Request)

namespace Request

open Keyword SessionM

def insertDimension (r : Request) (m : Meaning) : Except Failure Request := do
  let rec place : List String → Nat → Except Failure Nat
    | [], i => return i
    | _ :: ks, i => do if (← r.meaning i) == m then return i else place ks (i + 1)
  let i ← place r.keywords 0
  let ins {α : Type} (xs : List α) (x : α) (n : Nat) : List α := Sequence.insertAt xs n x
  let r₁ : Request := ⟨ins r.tokens "per" i, ins r.meanings .nothing i, ins r.keywords per i⟩
  if i != r.keywords.length then return r₁
  return ⟨ins r₁.tokens m.printed (i + 1), ins r₁.meanings m (i + 1),
    ins r₁.keywords objectType (i + 1)⟩

def listTerm (target : Term) (asked : List Term) (breakdown : Term) (withDefaults : Bool) :
    SessionM Term := do
  let own ← if withDefaults then do pure (((← get).defaults.get? target).getD []) else pure []
  let args := (own ++ asked).foldl (fun args t => if args.contains t then args else args ++ [t]) []
  if args.isEmpty then return .nothing
  let v ← pair args
  match breakdown with
  | .nothing => return v
  | k        => compose [v, k]

def partsFrom (breakdown : Term) : List Path → Nat → SessionM (Option (List Term))
  | [], _ => return some []
  | _ :: ps, i => do
    let t? ← tryCatch (some <$> part breakdown i) fun
      | .invalidApplication .. => return none
      | f => throw f
    match t? with
    | none   => return none
    | some t => return (← partsFrom breakdown ps (i + 1)).map (t :: ·)

def totalTerm (r : Request) (pivot target : Term) (ps : List Path) (numbers : List Term)
    (selection split : Term) : SessionM (Term × List Path) := do
  let (breakdown, ps) ← r.breakdown pivot target selection ps split
  let v ← if numbers.isEmpty then counting target else pair numbers
  let w ← together target
  let restricted := pivot == target && !(selection matches .nothing)
  let w ← if restricted then compose [w, selection] else pure w
  let v ← if restricted then compose [v, selection] else pure v
  let direct := pivot == target
  let z ← if direct then pure Term.nothing else part breakdown 1
  let w ← if direct then pure w else compose [w, z]
  let i := if direct then 0 else if split matches .nothing then 1 else 2
  let w? ← if ps.isEmpty || ps == [[]] then pure (some w)
    else if i == 0 && ps.length == 1 then pure (some breakdown)
    else do
      match ← partsFrom breakdown ps (i + 1) with
      | some zs => pure (some (← pair zs))
      | none    => pure none
  match w?, z with
  | none, _ => return (.nothing, ps)
  | some w, .nothing => return (← aggregate [v, w], ps)
  | some w, z =>
    if ← ofExcept do (← v.dom).isEqualTo (← z.cod) then
      return (← aggregate [← compose [v, z], w], ps)
    else return (.nothing, ps)

def quotientTerm (t u : Term) : SessionM Term := do
  match t, u with
  | .nothing, _ | _, .nothing => return .nothing
  | t, u => compose [(← get).quotient, ← pair [t, u]]

def averageTerm (r : Request) (pivot target : Term) (ps : List Path) (numbers : List Term)
    (selection : Term) : SessionM Term := do
  match numbers with
  | [] => return .nothing
  | x :: _ =>
    let (t, ps) ← r.totalTerm pivot target ps [x] selection .nothing
    let (u, _) ← r.totalTerm pivot target ps [] selection .nothing
    quotientTerm t u

def averagedOver (r : Request) (target : Term) (ps : List Path) (breakdown : Term)
    (ruledOut : List Term) : SessionM Term := do
  let s ← if ps.isEmpty then pure Term.nothing else r.split target ps ruledOut
  let s ← match s, breakdown with
    | .nothing, .nothing => pure Term.nothing
    | .nothing, k        => r.splitOfConditions target k ruledOut
    | s, _               => pure s
  match s with
  | .nothing => Meaning.asTerm <$> ofExcept (r.firstSplit target ruledOut)
  | s        => return s

def averageCountTerm (r : Request) (pivot target : Term) (ps : List Path) (breakdown : Term)
    (ruledOut : List Term) : SessionM Term := do
  match ← r.averagedOver target ps breakdown ruledOut with
  | .nothing => return .nothing
  | s =>
    let (splitDims, hints) ← r.dimensionPaths s s s []
    let (dims, _) ← r.dimensionPaths pivot target s hints
    let splitPaths ← r.constantPaths s s []
    let paths ← r.constantPaths pivot target splitPaths
    let selection ← selectionOf paths r.meanings pivot
    let splitSelection ← selectionOf splitPaths r.meanings s
    let (t, _) ← r.totalTerm pivot target dims [] selection s
    let (u, _) ← r.totalTerm s s splitDims [] splitSelection .nothing
    match t, u with
    | .nothing, _ | _, .nothing => return .nothing
    | t, u => quotientTerm t (← align u t)

def rankingOver (r : Request) (pivot target : Term) (order : String) (key : SessionM Term)
    (term : Request → Meaning → List Path → SessionM Term) : SessionM Interpretation := do
  let m ← r.nextTarget
  if m.isNothing then return .single .nothing
  let r ← ofExcept (r.insertDimension m)
  let (ps, _) ← r.dimensionPaths pivot target .nothing []
  let t ← term r m ps
  return .ranking t (← key) order r

def orderedRanking (r : Request) (target selection : Term) (order : String) :
    SessionM Interpretation := do
  match ← r.ranked with
  | .term .nothing => return .single .nothing
  | .term p =>
    match (← get).ordering.get? p with
    | none => return .single .nothing
    | some v =>
      discard (ofExcept v.name)
      discard (ofExcept p.name)
      let d ← ofExcept v.source
      if d == p then return .ranking (← listTerm target [v] selection true) v order r
      let path ← r.pathFrom v p
      let (t, _) ← r.totalTerm d target [path] [v] selection .nothing
      return .ranking t v order r
  | .list _ => throw .mistyped
  | _       => return .single .nothing

def countRanking (r : Request) (pivot target selection : Term) (order : String) :
    SessionM Interpretation :=
  r.rankingOver pivot target order (counting target) fun r _ ps => do
    return (← r.totalTerm pivot target ps [← counting target] selection .nothing).1

def totalRanking (r : Request) (pivot target : Term) (numbers : List Term) (selection : Term)
    (order : String) : SessionM Interpretation :=
  r.rankingOver pivot target order (ofExcept (Sequence.get numbers 0)) fun r _ ps => do
    return (← r.totalTerm pivot target ps numbers selection .nothing).1

def averageRanking (r : Request) (pivot target : Term) (numbers : List Term) (selection : Term)
    (order : String) : SessionM Interpretation :=
  r.rankingOver pivot target order (ofExcept (Sequence.get numbers 0)) fun r _ ps =>
    r.averageTerm pivot target ps numbers selection

def variableRanking (r : Request) (target : Term) (numbers types : List Term) (breakdown : Term)
    (order : String) : SessionM Interpretation := do
  let m ← r.nextTarget
  if m.isNothing then return .single .nothing
  let t ← listTerm target (numbers ++ types) breakdown (m == .term target)
  return .ranking t (← ofExcept (Sequence.get numbers 0)) order r

def averageCountRanking (r : Request) (pivot target breakdown : Term) (order : String) :
    SessionM Interpretation :=
  r.rankingOver pivot target order (counting target) fun r m ps =>
    r.averageCountTerm pivot target ps breakdown [m.asTerm]

def interpret (r : Request) (target : Term) (cls : Int) : SessionM Interpretation := do
  let pivot ← r.pivot
  if pivot matches .nothing then return .single .nothing
  unless ← ofExcept (pivot.isEqualTo target) do
    unless ← reaches pivot target do return .single .nothing
  let numericPaths ← r.numericPaths target
  let categoryPaths ← r.categoryPaths target
  let typePaths ← (← r.objectTypePaths pivot target).mapM Path.extend
  let order := direction r.keywords
  let numbers ← numericPaths.mapM compose
  let categories ← categoryPaths.mapM compose
  let types ← typePaths.mapM compose
  let selection ← r.selection pivot target
  let dims : SessionM (List Path) := do return (← r.dimensionPaths pivot target .nothing []).1
  match cls with
  | 1 =>
    let (breakdown, _) ← r.breakdown pivot target selection [] .nothing
    .single <$> listTerm target (numbers ++ categories ++ types) breakdown true
  | 2 => do return .single (← r.totalTerm pivot target (← dims) [] selection .nothing).1
  | 3 => do return .single (← r.totalTerm pivot target (← dims) numbers selection .nothing).1
  | 4 => do return .single (← r.averageTerm pivot target (← dims) numbers selection)
  | 5 =>
    let (breakdown, ps) ← r.breakdown pivot target selection (← dims) .nothing
    .single <$> r.averageCountTerm pivot target ps breakdown []
  | 6 => r.orderedRanking target selection order
  | 7 => r.countRanking pivot target selection order
  | 8 => r.totalRanking pivot target numbers selection order
  | 9 => r.averageRanking pivot target numbers selection order
  | 10 =>
    let (breakdown, _) ← r.breakdown pivot target selection [] .nothing
    r.variableRanking target numbers types breakdown order
  | 11 =>
    let (breakdown, _) ← r.breakdown pivot target selection [] .nothing
    r.averageCountRanking pivot target breakdown order
  | _ => return .single .nothing

end Request
end Inquiry
