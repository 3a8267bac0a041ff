import Inquiry.Term.Typing
import Inquiry.Sequence

/-!
How kinds and gaps are made: what is asked of their parts, and the type that an element gets from
its construction or from its ends.
-/

namespace Inquiry

-- What a kind is asked to be.
structure KindSpec where
  cls        : KindClass
  name       : String
  id?        : Option String := none
  sortNumber : Option Int := none
  domain     : Option Term := none
  codomain   : Option Term := none
  constr     : Option Term := none
  altname    : Option String := none
  article    : Option String := none
  code       : Option String := none
  categories : List Category := []

namespace KindClass

def details : KindClass → List String
  | objectType => ["name", "info", "constr", "id", "altname"]
  | phenomenon | measure | unit => ["name", "sortix", "info", "constr", "id"]
  | codeList => ["name", "categories", "sortix", "info", "constr", "id"]
  | level => ["name", "categories", "info", "constr", "id"]
  | quantity | representation => ["name", "info", "constr", "id"]
  | one => []
  | objectTypeRelation => ["name", "sortix", "domain", "codomain", "info", "constr", "id"]
  | .variable => ["name", "domain", "codomain", "info", "constr", "id", "article"]
  | constant => ["name", "codomain", "info", "constr", "id", "code"]
  | _ => ["name", "domain", "codomain", "info", "constr", "id"]

end KindClass

def TermSort.at (i : Int) : Except Failure TermSort :=
  Sequence.get TermSort.all i

namespace KindSpec

def sort (spec : KindSpec) : Except Failure TermSort :=
  match spec.sortNumber with
  | some i => TermSort.at i
  | none   => .ok spec.cls.sort

def head (n : Nat) (spec : KindSpec) (sort : TermSort) : KindHead where
  serial     := n
  id         := spec.id?.elim (.fresh n) .given
  cls        := spec.cls
  name       := spec.name
  sort       := sort
  altname    := spec.altname
  article    := spec.article
  code       := spec.code
  categories := spec.categories

end KindSpec

namespace Term

def one : Term :=
  kind { serial := 0, id := .given "one", cls := .one, name := "1", sort := .one }
    none none none none

def checkParts (role : String) (sort : Option TermSort) (type : Option Term) :
    Except Failure Unit := do
  let bound := sort.bind TermSort.role?
  if bound == some .type && role == "element" || bound == some .element && role == "type" then
    throw (.invalidTerm role)
  if let some ty := type then
    if role == "type" then throw (.invalidTerm role)
    if ← ty.hasRole .element then throw (.invalidTerm role)

def optionHasRole (r : Role) : Option Term → Except Failure Bool
  | none   => .ok false
  | some t => t.hasRole r

def makeType (n : Nat) (spec : KindSpec) : Except Failure Term := do
  if ← optionHasRole .element spec.constr then throw (.invalidKind none)
  let sort ← spec.sort
  checkParts "type" (some sort) none
  return kind (spec.head n sort) none none none spec.constr

def makeElement (n : Nat) (spec : KindSpec) : Except Failure Term := do
  let refuse : Except Failure Unit := do throw (.invalidKind (some (← spec.sort)))
  if ← optionHasRole .element spec.domain then refuse
  if ← optionHasRole .element spec.codomain then refuse
  if ← optionHasRole .type spec.constr then refuse
  let (type, domain, codomain) ← match spec.constr, spec.domain, spec.codomain with
    | some t, _, _ => do
      let type ← t.returnType (n + 1)
      let ends ← match type with
        | some ty => ty.args
        | none    => .error .absent
      pure (type, some (← Sequence.get ends 0), some (← Sequence.get ends 1))
    | none, some d, some c => do
      pure (some (← Op.functionalType.form (n + 1) [d, c]), some d, some c)
    | none, d, c => pure (none, d, c)
  let sort ← spec.sort
  checkParts "element" (some sort) type
  return kind (spec.head n sort) type domain codomain spec.constr

def make (n : Nat) (spec : KindSpec) : Except Failure Term :=
  match spec.cls with
  | .one      => makeType n { spec with name := "1" }
  | .constant => makeElement n { spec with domain := some one }
  | c         => if c.isType then makeType n spec else makeElement n spec

def makeGap (n : Nat) (name : String) (roleNumber : Int) (sortNumber : Option Int)
    (type : Option Term) (id? : Option String) : Except Failure Term := do
  let sort ← sortNumber.mapM TermSort.at
  if roleNumber == 1 && !type.any (hasOp .functionalType) then throw (.invalidGap name)
  let role ← Sequence.get Role.all roleNumber
  checkParts role.label sort type
  return gap { serial := n, id := id?.elim (.fresh n) .given, name, role, sort } type

def domain? : Term → Except Failure (Option Term)
  | kind h _ d .. => if h.cls.isElement then .ok d else .error .absent
  | _             => .error .absent

def codomain? : Term → Except Failure (Option Term)
  | kind h _ _ c _ => if h.cls.isElement then .ok c else .error .absent
  | _              => .error .absent

def domain (t : Term) : Except Failure Term := do
  match ← t.domain? with
  | some d => .ok d
  | none   => .error .absent

def codomain (t : Term) : Except Failure Term := do
  match ← t.codomain? with
  | some c => .ok c
  | none   => .error .absent

def name : Term → Except Failure String
  | kind h .. => .ok h.name
  | gap h _   => .ok h.name
  | _         => .error .absent

end Term
end Inquiry
