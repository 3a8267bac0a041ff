import Inquiry.Request.Dimension

/-!
Conditions: the constants of a request, the words next to them that tell which variable is meant,
and the selection that all of them together make.
-/

namespace Inquiry
namespace Request

open Keyword

def cluePatterns : List (List String × Int) :=
  [([relation, prep, "*"], 0), ([prep, "*", relation], 2), ([category, "*"], 0),
   (["*", category], 1), (["*", question, relation], 2)]

def clues (ks : List String) (k : Int) : Except Failure (List Int) := do
  let around := (← context ks k).map some
  cluePatterns.mapM fun (p, clue) => do return (← clueIndex p clue around ks).getD (-1)

abbrev Clues := Assoc Int (List Int)

def clashes (cs : Clues) : Clues :=
  cs.foldl (fun found (k, places) =>
    places.foldl (fun found c =>
      cs.foldl (fun found (l, others) =>
        if l != k && others.contains c then found.alter c [] (· ++ [k]) else found) found) found) []

def takeClue (cs : Clues) (i c : Int) : Except Failure Clues :=
  match cs.get? i with
  | none => .error .noKey
  | some places => if places.contains c then .ok (cs.put i (places.erase c)) else .error .badValue

def spare (cs : Clues) : Except Failure Clues :=
  (clashes cs).foldlM (fun cs (c, is) =>
    is.foldlM (fun cs i =>
      if ((cs.get? i).getD []).length > 1 then takeClue cs i c else .ok cs) cs) cs

def nearestTo (n : Nat) (c : Int) (is : List Int) : Int :=
  (is.foldl (fun (n, j) i => if n > (c - i).natAbs then ((c - i).natAbs, i) else (n, j)) (n, -1)).2

def settle (n : Nat) (cs : Clues) : Except Failure Clues :=
  (clashes cs).foldlM (fun cs (c, is) =>
    let j := nearestTo n c is
    is.foldlM (fun cs i => if i != j then takeClue cs i c else .ok cs) cs) cs

def share (r : Request) (cs : Clues) (k : Nat) : SessionM Clues := do
  if cs.any fun (_, places) => places.contains k then return cs
  cs.mapM fun (i, places) => do
    let g ← ofExcept do (← r.meaning k).goal
    let h ← ofExcept do (← r.meaning i).goal
    if g == h then return (i, places ++ [(k : Int)])
    if ← SessionM.reaches g h then return (i, places ++ [(k : Int)])
    return (i, places)

def clueMeanings (r : Request) (cs : Clues) : SessionM (Assoc Int (List Meaning)) := do
  let cs := cs.map fun (k, places) => (k, places.filter (· != -1))
  let cs ← ofExcept (spare cs)
  let cs ← ofExcept (settle r.keywords.length cs)
  let cs ← (r.places [relation, category]).foldlM (r.share ·) cs
  cs.mapM fun (k, places) => do return (k, ← ofExcept (places.mapM r.meaning))

def variableAmong (goal : Except Failure Term) : List Meaning → Except Failure (Term × List Term)
  | [] => .ok (.nothing, [])
  | m :: ms => do
    let own ← if m.asTerm.isVariable then (do return (← m.goal) == (← goal)) else pure false
    let (v, clues) ← variableAmong goal ms
    if own then return (if v matches .nothing then m.asTerm else v, clues)
    return (v, m.asTerm :: clues)

def constantPath (r : Request) (pivot target : Term) (hints : Assoc Int Path) (k : Int)
    (ms : List Meaning) : SessionM Path := do
  let const ← ofExcept (r.meaning k)
  let (v, clues) ← ofExcept (variableAmong const.goal ms)
  let v ← match v with
    | .nothing => do
      match (← get).preferred.get? (← ofExcept const.goal) with
      | some v => pure v
      | none   => throw .noKey
    | v => pure v
  let dest ← ofExcept v.source
  let clues := if pivot == target then clues else clues ++ [target]
  let hint := ((hints.get? k).getD []).tail
  return v :: (← SessionM.bestPath pivot dest clues hint)

def pathsByClues (r : Request) (ms : Assoc Int (List Meaning)) (pivot target : Term)
    (hints : Assoc Int Path) : SessionM (Assoc Int Path) :=
  ms.mapM fun (k, ms) => do return (k, ← r.constantPath pivot target hints k ms)

def constantPaths (r : Request) (pivot target : Term) (hints : Assoc Int Path) :
    SessionM (Assoc Int Path) := do
  let cs ← (r.places [constant]).mapM fun (k : Nat) => do
    return ((k : Int), ← ofExcept (clues r.keywords k))
  r.pathsByClues (← r.clueMeanings cs) pivot target hints

end Request

namespace SessionM

def insertPair (t u : Term) : List Term → List Term
  | []               => [t, u]
  | [x]              => if x.printed > t.printed then [x, t, u] else [t, u, x]
  | x :: y :: rest   =>
    if x.printed > t.printed then x :: y :: insertPair t u rest else t :: u :: x :: y :: rest

def printsAmong (t : Term) (ts : List Term) : Bool :=
  ts.any (·.printed == t.printed)

def addCondition (args : List Term) (t u : Term) : Except Failure (List Term) :=
  if printsAmong t args then
    match args.findIdx? (· == t) with
    | none   => .error .badValue
    | some i => do
      let old ← Sequence.get args (i + 1 : Nat)
      if u.printed > old.printed then return insertPair t u ((args.erase t).erase old)
      else return args
  else .ok (insertPair t u args)

def selectionOf (ps : Assoc Int Path) (ms : List Meaning) (pivot : Term) : SessionM Term := do
  let args ← ps.foldlM (fun args (k, p) => do
    let first ← ofExcept (Sequence.get p (-1))
    if (← ofExcept first.source) == pivot then
      let const ← ofExcept (Sequence.get ms k)
      let t ← compose p
      let u ← compose [const.asTerm, ← together pivot]
      ofExcept (addCondition args t u)
    else return args) []
  restrict args

end SessionM

namespace Request

open Keyword

def selection (r : Request) (pivot target : Term) : SessionM Term := do
  SessionM.selectionOf (← r.constantPaths pivot target []) r.meanings pivot

def selected (ps : List Path) : SessionM Term := do
  SessionM.pair (← (ps.filter (!·.isEmpty)).mapM SessionM.compose)

def breakdown (r : Request) (pivot target selection : Term) (ps : List Path) (split : Term) :
    SessionM (Term × List Path) := do
  let ps ← ps.mapM Path.extend
  let led ← if pivot == target then pure [] else do
    let clues := (← ofExcept (r.mentions [objectType, relation, constant])).map Meaning.asTerm
    let splitting ← match split with
      | .nothing => pure []
      | s        => pure [← SessionM.bestPath pivot s clues []]
    pure ((← SessionM.bestPath pivot target clues []) :: splitting)
  let t ← selected (led ++ ps)
  let u ← match t, selection with
    | .nothing, s => pure s
    | t, .nothing => pure t
    | t, s        => SessionM.compose [t, s]
  match u with
  | .nothing => return (.nothing, ps)
  | u => if pivot == target then return (u, ps) else return (← SessionM.invert [u], ps)

end Request
end Inquiry
