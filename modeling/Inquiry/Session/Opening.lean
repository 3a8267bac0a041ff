import Inquiry.Session.Recall

/-!
Opening a session on a model: a graph, the tables about its kinds, and the designs of the data
sets that are stored.
-/

namespace Inquiry

-- A variable of a design, with the names of its ends.
structure Operand where
  name     : String
  domain   : String
  codomain : String

structure Design where
  name     : String
  operands : List Operand

-- Rows hold a name and a sort, and then further names with their sorts.
structure Model where
  nodes       : List Node := []
  edges       : List EdgeSpec := []
  defaults    : List (List String) := []
  preferred   : List (List String) := []
  whichWay    : List (List String) := []
  override    : List (List String) := []
  orientation : List (List String) := []
  ordering    : List (List String) := []
  pronouns    : List (List String) := []
  designs     : List Design := []

namespace Model

def graph (m : Model) : Graph :=
  let nodes := { name := "1", sort := "One" : Node } :: m.nodes
  m.edges.foldl Graph.addEdges (nodes.foldl Graph.addNode {})

def coded (m : Model) : Model :=
  { m with edges := m.edges.map fun e =>
      if e.sort == "Constant" && (Graph.nonEmpty e.code).isNone then { e with code := some e.name }
      else e }

end Model

namespace SessionM

def cell (row : List String) (i : Nat) : SessionM String :=
  ofExcept (Sequence.get row i)

def rowKind (row : List String) (i : Nat) : SessionM Term := do
  kindOfSort (← cell row i) (← cell row (i + 1))

def readRows (rows : List (List String)) (read : List String → SessionM α) :
    SessionM (TermTable α) :=
  rows.foldlM (fun table row => do
    let k ← rowKind row 0
    return table.put k (← read row)) []

def readKinds (rows : List (List String)) : SessionM (TermTable Term) :=
  readRows rows (rowKind · 2)

def readKindLists (rows : List (List String)) : SessionM (TermTable (List Term)) :=
  readRows rows fun row =>
    (List.range (row.length / 2 - 1)).mapM fun i => rowKind row (2 * i + 2)

def readTexts (rows : List (List String)) : SessionM (TermTable String) :=
  readRows rows (cell · 2)

def operand (o : Operand) : SessionM Term := do
  match ← kindOfSort o.name "Variable" with
  | .nothing =>
    let d ← kindNamed o.domain
    let c ← kindNamed o.codomain
    let v ← make
      { cls := .variable, name := o.name, domain := Term.present d, codomain := Term.present c }
    know o.name v
    return v
  | v => return v

def readDesign (d : Design) : SessionM Term := do
  let args ← d.operands.mapM operand
  make { cls := .datasetDesign, name := d.name, constr := some (← app .product args) }

def start (m : Model) : SessionM Unit := do
  let number ← make { cls := .quantity, name := "getal" }
  know "1" .one
  know "getal" number
  let pair ← app .cartesianProduct [number, number]
  let quotient ← make
    { cls := .operator, name := "(/)", domain := some pair, codomain := some number }
  modify fun s => { s with graph := m.graph, number, quotient }
  let defaults ← readKindLists m.defaults
  modify fun s => { s with defaults }
  let preferred ← readKinds m.preferred
  modify fun s => { s with preferred }
  let whichWay ← readKinds m.whichWay
  modify fun s => { s with whichWay }
  let override ← readKinds m.override
  modify fun s => { s with override }
  let orientation ← readKinds m.orientation
  modify fun s => { s with orientation }
  let ordering ← readKinds m.ordering
  modify fun s => { s with ordering }
  let pronouns ← readTexts m.pronouns
  modify fun s => { s with pronouns }
  let designs ← m.designs.mapM readDesign
  modify fun s => { s with designs }
  let objectTypes ← ((← get).graph.nodesOfSort "ObjectType").mapM fun v => restore (.ofNode v)
  modify fun s => { s with objectTypes }

end SessionM

namespace Session

def start (m : Model) : Except Failure Session :=
  match (SessionM.start m).runIn {} with
  | (.ok _, s)    => .ok s
  | (.error f, _) => .error f

end Session
end Inquiry
