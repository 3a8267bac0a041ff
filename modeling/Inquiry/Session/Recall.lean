import Inquiry.Json.Reader
import Inquiry.Session.Basic
import Inquiry.Term.Storage

/-!
Recalling kinds from the graph. A kind is built when its name is met for the first time, and known
from then on. Sorts for which no kind can be built leave a name known without a kind.
-/

namespace Inquiry

-- What the graph tells of a kind. The ends of an element are records of their own; a record that
-- cannot be read is kept as the failure that reading it gives.
inductive Record where
  | mk (name sort altname article code : Option String) (domain codomain : Except Failure Record)

namespace Record

def ofEnd (e : EndName) : Record :=
  mk e.name e.sort none none none (.error .noKey) (.error .noKey)

def ofNode (v : Node) : Record :=
  mk v.name v.sort v.altname none none (.error .noKey) (.error .noKey)

def ofEdge (e : Edge) : Record :=
  mk e.name e.sort none e.article e.code (.ok (ofEnd e.domain)) (.ok (ofEnd e.codomain))

def ofJson : Nat → Json → Except Failure Record
  | 0, _ => .error .mistyped
  | n + 1, v@(.obj _) =>
    let text (field : String) := (v.get? field).bind Json.str?
    let ending (field : String) : Except Failure Record := do
      match v.get? field with
      | none          => throw .noKey
      | some (.str s) => ofJson n (← Json.parse s)
      | some _        => throw .mistyped
    let sort := (v.get? "sort").map fun s => s.str?.getD ""
    .ok (mk (text "name") sort (text "altname") (text "article") (text "code")
      (ending "domain") (ending "codomain"))
  | _, _ => .error .mistyped

end Record

namespace SessionM

def know (name : String) (k : Term) : SessionM Unit :=
  modify fun s => { s with known := s.known.insert name k }

def built (c : KindClass) : Bool :=
  !(c == .codeList || c == .datasetDesign || c == .operator)

def restore : Record → SessionM Term
  | .mk name? sort? altname article code domain codomain => do
    let some name := name? | throw .noKey
    if let some k := (← get).known[name]? then return k
    let some sort := sort? | throw .noKey
    let k ← match KindClass.ofLabel? sort with
      | none => pure Term.nothing
      | some c =>
        if c.isType then
          if built c then
            make { cls := c, name, altname := if c == .objectType then altname else none }
          else pure Term.nothing
        else do
          let d ← recallEnd domain
          let c' ← recallEnd codomain
          if built c then
            make
              { cls := c, name, domain := Term.present d, codomain := Term.present c',
                article := if c == .variable then article else none,
                code := if c == .constant then code else none }
          else pure Term.nothing
    know name k
    return k
where
  recallEnd : Except Failure Record → SessionM Term
    | .ok r    => restore r
    | .error f => throw f

def nodeKind (name : String) : SessionM Term := do
  match (← get).graph.node? name with
  | some v => restore (.ofNode v)
  | none   => return .nothing

def edgeKind (name : String) : SessionM Term := do
  match (← get).graph.edge? name with
  | some e => restore (.ofEdge e)
  | none   => return .nothing

def kindNamed (name : String) : SessionM Term := do
  if let some k := (← get).known[name]? then return k
  if ((← get).graph.node? name).isSome then nodeKind name else edgeKind name

def kindOfSort (name sort : String) : SessionM Term := do
  if let some k := (← get).known[name]? then return k
  match KindClass.ofLabel? sort with
  | none   => throw .unknownSort
  | some c => if c.isType then nodeKind name else edgeKind name

def pathsNamed (origin dest : String) : SessionM (List (List Term)) := do
  ((← get).graph.trails origin dest).mapM fun trail => do
    let kinds ← trail.mapM fun e => restore (.ofEdge e)
    return kinds.reverse

def paths (origin dest : Term) : SessionM (List (List Term)) :=
  match origin, dest with
  | .nothing, _ | _, .nothing => return []
  | _, _ => pathsNamed origin.printed dest.printed

def reaches (origin dest : Term) : SessionM Bool := do
  return !(← paths origin dest).isEmpty

def asKind (t : Term) : SessionM Term :=
  match t with
  | .kind .. | .nothing => return t
  | _                   => throw .mistyped

def commonOrigin (t u : Term) : List Term → Term → SessionM Term
  | [], choice => return choice
  | o :: os, choice => do
    if (← reaches o t) then
      if (← reaches o u) then
        if (← reaches choice o) then return ← commonOrigin t u os o
        match choice with
        | .nothing => return ← commonOrigin t u os o
        | _        => pure ()
    commonOrigin t u os choice

def origin (t u : Term) : SessionM Term := do
  match t with
  | .nothing => asKind u
  | _ =>
    if ← reaches t u then asKind t
    else if ← reaches u t then asKind u
    else match u with
      | .nothing => asKind t
      | _ =>
        if t == u then asKind t
        else commonOrigin t u (← get).objectTypes .nothing

end SessionM
end Inquiry
