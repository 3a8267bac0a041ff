import Inquiry.Kind.Making
import Inquiry.Markup.Basic

/-!
The structure of a kind as a marked-up tree. Kinds inside the structure are written by their
identifier only; the kinds that were met are kept in a list of uses, and reading the tree back
looks them up there.
-/

namespace Inquiry

open Markup

abbrev Uses := List Term

namespace Uses

def ident? : Term → Option Ident
  | .kind h .. => some h.id
  | .gap h _   => some h.id
  | _          => none

def find? (uses : Uses) (id : Option String) : Option Term :=
  List.find? (fun k => id.isSome && (ident? k).map Ident.text == id) uses

def add (uses : Uses) (k : Term) : Uses :=
  if uses.any fun u => ident? u == ident? k then uses else uses ++ [k]

def ids (uses : Uses) : List String :=
  uses.filterMap fun k => (ident? k).map Ident.text

end Uses

namespace Term

-- The uses met so far, and whether a gap without a sort was written, which cannot be put into text.
structure Writing where
  uses     : Uses
  sortless : Bool := false

abbrev WritingM := ExceptT Failure (StateM Writing)

def structureOf : Term → WritingM Element
  | t@(kind h ..) => do
    modify fun w => { w with uses := w.uses.add t }
    return .node "use" [("id", h.id.text)] []
  | gap h type => do
    if type.isSome then throw .absent
    match h.sort with
    | some s =>
      return .node "gap"
        [("name", h.name), ("kind", h.role.label), ("sort", s.label), ("id", h.id.text)] []
    | none =>
      modify fun w => { w with sortless := true }
      return .node "gap" [("name", h.name), ("kind", h.role.label), ("id", h.id.text)] []
  | app _ op args _ => return .node "application" [("operation", op.label)] (← structureOfList args)
  | _ => throw .absent
where
  structureOfList : List Term → WritingM (List Element)
    | []      => return []
    | t :: ts => return (← structureOf t) :: (← structureOfList ts)

def enclosed (tag : String) : Option Term → WritingM (List Element)
  | none   => return []
  | some t => return [.node tag [] [← structureOf t]]

def structureOfKind : Term → WritingM Element
  | kind h _ domain codomain constr => do
    let ends ← if h.cls.isElement then
        pure ((← enclosed "domain" domain) ++ (← enclosed "codomain" codomain))
      else pure []
    let built ← enclosed "construction" constr
    if (← get).sortless then throw .mistyped
    return .node "structure" [("kind", h.cls.role.label)] (ends ++ built)
  | _ => throw .absent

def storedOp? (label : Option String) : Option Op :=
  let stored : List Op :=
    [.composition, .product, .cartesianProduct, .inclusion, .selection, .functionalType,
     .aggregation]
  stored.find? fun op => some op.label == label

-- Reading builds terms, numbered one after the other.
abbrev ReadingM := ExceptT Failure (StateM Nat)

def build (op : Op) (args : List Term) : ReadingM Term := do
  let n ← get
  set (n + Op.serials)
  ofExcept (Term.apply n op args)

def ofStructure (uses : Uses) : Element → ReadingM Term
  | .mk tag attributes _ children _ => do
    if tag == "application" then
      let args ← ofStructures children
      match storedOp? (attributes.lookup "operation") with
      | some op => build op args
      | none    => throw .absent
    else if tag == "gap" then
      if let some d ← ofEnd "domain" children then
        match ← ofEnd "codomain" children with
        | some c => discard <| build .functionalType [d, c]
        | none   => throw .unassigned
      throw .mistyped
    else if tag == "use" then
      match uses.find? (attributes.lookup "id") with
      | some k => return k
      | none   => throw .noKey
    else return nothing
where
  ofStructures : List Element → ReadingM (List Term)
    | []      => return []
    | e :: es => return (← ofStructure uses e) :: (← ofStructures es)
  ofEnd (tag : String) : List Element → ReadingM (Option Term)
    | [] => return none
    | .mk tag' _ _ inner _ :: es =>
      if tag' == tag then
        match inner with
        | []     => throw .outOfRange
        | e :: _ => return some (← ofStructure uses e)
      else ofEnd tag es

-- A kind whose structure is being read back.
structure Restoring where
  subject : Term
  next    : Nat

abbrev RestoringM := ExceptT Failure (StateM Restoring)

namespace RestoringM

def read (x : ReadingM α) : RestoringM α := do
  let s ← get
  let (r, n) := (ExceptT.run x).run s.next
  set { s with next := n }
  match r with
  | .ok a    => return a
  | .error f => throw f

def change (f : Option Term → Option Term → Option Term → Option Term →
    Option Term × Option Term × Option Term × Option Term) : RestoringM Unit :=
  modify fun s =>
    match s.subject with
    | .kind h ty d c k =>
      let (ty, d, c, k) := f ty d c k
      { s with subject := .kind h ty d c k }
    | _ => s

def setType (t : Option Term) : RestoringM Unit := change fun _ d c k => (t, d, c, k)
def setDomain (t : Option Term) : RestoringM Unit := change fun ty _ c k => (ty, t, c, k)
def setCodomain (t : Option Term) : RestoringM Unit := change fun ty d _ k => (ty, d, t, k)
def setConstr (t : Option Term) : RestoringM Unit := change fun ty d c _ => (ty, d, c, t)

end RestoringM

def present : Term → Option Term
  | nothing => none
  | t       => some t

open RestoringM in
def restore (uses : Uses) (root : Element) : RestoringM Unit := do
  let isElement := root.get? "kind" == some "element"
  if (root.find? "construction").isSome then
    match ← read (ofStructure.ofEnd uses "construction" root.children) with
    | none => return
    | some t =>
      setConstr (present t)
      if isElement then
        if (present t).isNone then throw .absent
        setType t.type?
        setDomain (some (← ofExcept t.dom))
        setCodomain (some (← ofExcept t.cod))
  else
    unless isElement do throw .unassigned
    let d ← read (ofStructure.ofEnd uses "domain" root.children)
    if let some t := d then setDomain (present t)
    let c ← read (ofStructure.ofEnd uses "codomain" root.children)
    if let some t := c then setCodomain (present t)
    if let (some d, some c) := (d, c) then
      setType (some (← read (build .functionalType [d, c])))

end Term
end Inquiry
