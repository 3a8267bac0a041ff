import Inquiry.Graph.Statement
import Inquiry.Script.Value

/-!
Filling a graph store with the kinds of a domain: types become nodes and elements become edges. What
is said to the store is kept, together with what is printed on the way. The store does not remember
kinds, so that it cannot be asked for one.
-/

namespace Inquiry
namespace Store

structure Log where
  statements : List Statement := []
  printed    : String := ""

abbrev StoreM := ExceptT Failure (StateM Log)

def say (s : Statement) : StoreM Unit :=
  modify fun l => { l with statements := l.statements ++ [s] }

def print (line : String) : StoreM Unit :=
  modify fun l => { l with printed := l.printed ++ line ++ "\n" }

def clear : StoreM Unit := do
  say .clear
  print "Graph cleared"

/-! Labels -/

-- What a label is set to.
inductive Label where
  | text (s : String)
  | kind
  | list (ls : List Label)
  | other
  deriving Inhabited

def itemTexts (write : String → String) (complaint : String) :
    Option String → List Label → StoreM (List String)
  | _, [] => return []
  | _, .text s :: ls => do return write s :: (← itemTexts write complaint (some (write s)) ls)
  | _, .kind :: _ => throw .undefinedName
  | last, _ :: ls => do
    print complaint
    let some t := last | throw .unassigned
    return t :: (← itemTexts write complaint last ls)

def unsupported : String := "Unable to add label, label datatype not supported"

def textChange (name key s : String) : String :=
  " SET " ++ name ++ "." ++ key ++ " = \"\x7bstring: " ++ s ++ "\x7d\" "

def labelNode (name key : String) : Label → StoreM Unit
  | .text s  => say (.labelNode name (textChange name key s))
  | .kind    => throw .undefinedName
  | .list [] => say (.labelNode name (" RETURN " ++ name))
  | .list ls => do
    let complaint := "Unable to add label " ++ key ++ ", label datatype not supported"
    let texts ← itemTexts (fun s => "\x7b'string': " ++ s ++ "\x7d") complaint none ls
    say (.labelNode name (" SET " ++ name ++ "." ++ key ++ " = \" \x7b'list': ["
      ++ ", ".intercalate texts ++ "] \x7d \" "))
  | .other   => do
    print unsupported
    say (.labelNode name "")

def labelEdge (name key : String) : Label → StoreM Unit
  | .text s  => say (.labelEdge name (textChange name key s))
  | .kind    => throw .undefinedName
  | .list [] => say (.labelEdge name (" RETURN " ++ name))
  | .list ls => do
    let texts ← itemTexts (fun s => "\x7b\"string\": " ++ s ++ "\x7d") unsupported none ls
    let s := Statement.labelEdge name (" SET " ++ name ++ "." ++ key ++ " = [\""
      ++ ", ".intercalate texts ++ "\"]")
    print s.text
    say s
  | .other   => do
    print unsupported
    say (.labelEdge name "")

def labelAll (label : String → String → Label → StoreM Unit) (key : String)
    (rows : List (String × Label)) : StoreM Unit :=
  rows.forM fun (name, l) => label name key l

/-! Kinds -/

-- Kinds by their class.
abbrev Groups := Assoc String (List Term)

def group (classes : List String) (ks : List Term) : Groups :=
  (ks.filter fun k => classes.contains k.className).foldl
    (fun m k => Assoc.alter m k.className [] (· ++ [k])) []

def divide (ks : List Term) (types elements : List String) : Groups × Groups :=
  (group types ks, group (elements.filter fun c => !types.contains c) ks)

def nodeClasses : List String := ["ObjectType", "Phenomenon", "Quantity", "Level"]

def fillNodes (types : Groups) (oneName oneSort : String) : StoreM Unit := do
  say (.addNode ⟨oneName, oneSort, none⟩)
  types.forM fun (cls, ks) => do
    if nodeClasses.contains cls then
      ks.forM fun k => do
        match k.head? with
        | some h => say (.addNode ⟨h.name, cls, h.altname⟩)
        | none   => throw .absent

def endOf (x : Except Failure (Option Term)) : Option EndName :=
  match x with
  | .ok (some t) =>
    match t.name with
    | .ok name => some ⟨name, t.className⟩
    | .error _ => none
  | _ => none

-- The ends of the element before.
structure Ends where
  domain   : Option EndName := none
  codomain : Option EndName := none

def addElement (cls : String) (k : Term) (ends : Ends) : StoreM Ends := do
  let codomain := endOf k.codomain?
  let isConstant := cls == "Constant"
  let domain := if isConstant then ends.domain else endOf k.domain?
  let what := if isConstant then "No codomain" else "No domain"
  let complain : StoreM Unit :=
    print (what ++ " specified for " ++ cls ++ " " ++ (Script.Value.ofTerm k).text)
  if domain.isNone && !isConstant then complain
  if codomain.isNone then complain
  let ends : Ends :=
    { domain   := if isConstant then some ⟨"1", "One"⟩ else domain.or ends.domain
      codomain := codomain.or ends.codomain }
  let name ← ofExcept k.name
  let some codomain := ends.codomain | throw .unassigned
  let some domain := ends.domain | throw .unassigned
  let some h := k.head? | throw .absent
  if isConstant && h.cls != .constant then throw .absent
  say (.addEdges ⟨name, cls, domain, codomain, h.article, if isConstant then h.code else none⟩)
  return ends

def fillEdges (elements : Groups) : StoreM Unit := do
  let mut ends : Ends := {}
  for (cls, ks) in elements do
    if ["ObjectTypeRelation", "Variable", "Constant"].contains cls then
      for k in ks do
        ends ← addElement cls k ends
    if cls == "Operator" then print "Operator not implemented in graph database"

/-! Questions that the store cannot answer -/

def kindNamed (name : Script.Value) (sort : Option Script.Value) : StoreM Script.Value :=
  match name with
  | .term t => if t.isKind then return name else throw .mistyped
  | .str s  =>
    match sort.getD .null with
    | .str _ => throw .absent
    | k      =>
      if !k.isTrue then throw .absent
      else if s.isEmpty then return .null
      else throw .mistyped
  | v       => if v.isTrue then throw .mistyped else return .null

def paths (origin dest : Script.Value) : StoreM (List Script.Value) :=
  match origin, dest with
  | .null, _ | _, .null => return []
  | _, _                => throw .undefinedName

def retrieve (record : Script.Value) : StoreM Script.Value := do
  print ("dict_to_kind( " ++ record.text ++ " )")
  match record with
  | .dict es => if es.any fun (k, _) => k == .str "name" then throw .absent else throw .noKey
  | _        => throw .mistyped

def unanswered : StoreM Script.Value :=
  throw .undefinedName

def run (x : StoreM α) : Except Failure α × Log :=
  (ExceptT.run x).run {}

end Store
end Inquiry
