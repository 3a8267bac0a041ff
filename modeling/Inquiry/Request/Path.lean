import Inquiry.Request.Building

/-!
Paths through the graph, written as the kinds along them with the last one first, and the choice of
the path that the clues of a request point at.
-/

namespace Inquiry

abbrev Path := List Term

namespace Path

def isPrefix [BEq α] (p q : List α) : Bool :=
  p.length ≤ q.length && q.take p.length == p

def isPostfix [BEq α] (p q : List α) : Bool :=
  p.length ≤ q.length && q.drop (q.length - p.length) == p

def insertSorted (text : α → String) (x : α) : List α → List α
  | []      => [x]
  | y :: ys => if text y > text x then y :: insertSorted text x ys else x :: y :: ys

def insert (p : Path) (ps : List Path) : List Path :=
  insertSorted Term.printedList p ps

def meantByConstant (override : TermTable Term) (edge clue : Term) : Except Failure Bool := do
  if ← clue.hasRole .element then
    if ← (← clue.domain).isEqualTo .one then
      match override.get? (← clue.goal) with
      | some o =>
        if ← (← edge.domain).isEqualTo o then return true
        (← edge.codomain).isEqualTo o
      | none => return false
    else return false
  else return false

def clueScore (override : TermTable Term) (edge clue : Term) : Except Failure Nat := do
  let own ← edge.isEqualTo clue
  let near ← do
    if ← (← edge.domain).isEqualTo clue then pure true else (← edge.codomain).isEqualTo clue
  let meant ← meantByConstant override edge clue
  return (if own then 10 else 0) + (if near then 4 else 0) + (if meant then 2 else 0)

def edgeScore (s : Session) (clues : List Term) (edge : Term) : Except Failure Nat := do
  let told ← clues.mapM (clueScore s.override edge)
  let way ← match s.whichWay.get? (← edge.source) with
    | some e => pure (edge == e)
    | none   => pure false
  return told.foldl (· + ·) (if way then 1 else 0)

def score (s : Session) (clues : List Term) (p : Path) : Except Failure Nat := do
  return (← p.mapM (edgeScore s clues)).foldl (· + ·) 0

def bestFrom (s : Session) (clues : List Term) (hint : Path) :
    List Path → Option Nat → Path → Except Failure Path
  | [], _, best => .ok best
  | p :: ps, n?, best => do
    if !hint.isEmpty && isPrefix hint p then return p
    let k ← score s clues p
    match n? with
    | some n =>
      if k > n then bestFrom s clues hint ps (some k) p
      else if k == n && best.length < p.length then bestFrom s clues hint ps (some n) p
      else bestFrom s clues hint ps (some n) best
    | none => bestFrom s clues hint ps (some k) p

def best (s : Session) (ps : List Path) (clues : List Term) (hint : Path) : Except Failure Path :=
  bestFrom s clues hint ps none []

end Path

namespace SessionM

def bestPath (origin dest : Term) (clues : List Term) (hint : Path) : SessionM Path := do
  let ps ← paths origin dest
  ofExcept (Path.best (← get) ps clues hint)

end SessionM
end Inquiry
