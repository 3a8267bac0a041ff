/-!
Terms: kinds of metadata, gaps that stand for an unknown term, and applications of an operation
to arguments. A term is a type (a set of things) or an element (a function from its domain to its
codomain). Every term that is built gets a serial number of its own, so that two terms can be told
apart although they print alike.
-/

namespace Inquiry

-- What a term is: a set, a function between sets, or left open.
inductive Role where
  | type
  | element
  | kind
  deriving DecidableEq, Repr, Inhabited

namespace Role

def label : Role → String
  | type    => "type"
  | element => "element"
  | kind    => "kind"

def all : List Role := [type, element, kind]

end Role

-- The sorts of metadata, in their numbering.
inductive TermSort where
  | objectType
  | phenomenon
  | objectTypeRelation
  | variable
  | datasetDesign
  | quantity
  | measure
  | unit
  | codeList
  | level
  | representation
  | objectTypeInclusion
  | datasetDescription
  | phenomenonMeasureMapping
  | measureRepresentationMapping
  | constant
  | one
  | value
  | category
  | classification
  | hierarchy
  | operator
  | unspecifiedElement
  | unspecifiedType
  deriving DecidableEq, Repr, Inhabited

namespace TermSort

def label : TermSort → String
  | objectType                   => "object type"
  | phenomenon                   => "phenomenon"
  | objectTypeRelation           => "object type relation"
  | .variable                     => "variable"
  | datasetDesign                => "dataset design"
  | quantity                     => "quantity"
  | measure                      => "measure"
  | unit                         => "unit (of measure)"
  | codeList                     => "code list"
  | level                        => "level"
  | representation               => "representation"
  | objectTypeInclusion          => "object type inclusion"
  | datasetDescription           => "dataset description"
  | phenomenonMeasureMapping     => "phenomenon-measure mapping"
  | measureRepresentationMapping => "measure-representation mapping"
  | constant                     => "constant"
  | one                          => "one"
  | value                        => "value"
  | category                     => "category"
  | classification               => "classification"
  | hierarchy                    => "hierarchy"
  | operator                     => "operator"
  | unspecifiedElement           => "unspecified element"
  | unspecifiedType              => "unspecified type"

def all : List TermSort :=
  [objectType, phenomenon, objectTypeRelation, .variable, datasetDesign, quantity, measure, unit,
   codeList, level, representation, objectTypeInclusion, datasetDescription,
   phenomenonMeasureMapping, measureRepresentationMapping, constant, one, value, category,
   classification, hierarchy, operator, unspecifiedElement, unspecifiedType]

def ofLabel? (s : String) : Option TermSort :=
  all.find? (·.label == s)

def role? : TermSort → Option Role
  | objectType | phenomenon | quantity | measure | unit | codeList | level | representation
  | one => some .type
  | objectTypeRelation | .variable | datasetDesign | objectTypeInclusion | datasetDescription
  | phenomenonMeasureMapping | measureRepresentationMapping | constant | operator => some .element
  | value | category | classification | hierarchy | unspecifiedElement | unspecifiedType => none

end TermSort

-- The classes of kinds; some are special cases of another one.
inductive KindClass where
  | objectType
  | phenomenon
  | quantity
  | measure
  | unit
  | codeList
  | level
  | representation
  | one
  | objectTypeRelation
  | objectTypeInclusion
  | variable
  | datasetDesign
  | datasetDescription
  | phenomenonMeasureMapping
  | measureRepresentationMapping
  | constant
  | operator
  deriving DecidableEq, Repr, Inhabited

namespace KindClass

def label : KindClass → String
  | objectType                   => "ObjectType"
  | phenomenon                   => "Phenomenon"
  | quantity                     => "Quantity"
  | measure                      => "Measure"
  | unit                         => "Unit"
  | codeList                     => "CodeList"
  | level                        => "Level"
  | representation               => "Representation"
  | one                          => "One"
  | objectTypeRelation           => "ObjectTypeRelation"
  | objectTypeInclusion          => "ObjectTypeInclusion"
  | .variable                     => "Variable"
  | datasetDesign                => "DatasetDesign"
  | datasetDescription           => "DatasetDescription"
  | phenomenonMeasureMapping     => "PhenomenonMeasureMapping"
  | measureRepresentationMapping => "MeasureRepresentationMapping"
  | constant                     => "Constant"
  | operator                     => "Operator"

def all : List KindClass :=
  [objectType, phenomenon, quantity, measure, unit, codeList, level, representation, one,
   objectTypeRelation, objectTypeInclusion, .variable, datasetDesign, datasetDescription,
   phenomenonMeasureMapping, measureRepresentationMapping, constant, operator]

def ofLabel? (s : String) : Option KindClass :=
  all.find? (·.label == s)

def sort : KindClass → TermSort
  | objectType                   => .objectType
  | phenomenon                   => .phenomenon
  | quantity                     => .quantity
  | measure                      => .measure
  | unit                         => .unit
  | codeList                     => .codeList
  | level                        => .level
  | representation               => .representation
  | one                          => .one
  | objectTypeRelation           => .objectTypeRelation
  | objectTypeInclusion          => .objectTypeInclusion
  | .variable                     => .variable
  | datasetDesign                => .datasetDesign
  | datasetDescription           => .datasetDescription
  | phenomenonMeasureMapping     => .phenomenonMeasureMapping
  | measureRepresentationMapping => .measureRepresentationMapping
  | constant                     => .constant
  | operator                     => .operator

def isType : KindClass → Bool
  | objectType | phenomenon | quantity | measure | unit | codeList | level | representation
  | one => true
  | _   => false

def isElement (c : KindClass) : Bool :=
  !c.isType

def role (c : KindClass) : Role :=
  if c.isType then .type else .element

def isRelation : KindClass → Bool
  | objectTypeRelation | objectTypeInclusion => true
  | _ => false

def isPhenomenon : KindClass → Bool
  | phenomenon | quantity => true
  | _ => false

def isMeasure : KindClass → Bool
  | measure | unit | codeList | level => true
  | _ => false

end KindClass

-- The operations that terms are built with.
inductive Op where
  | composition
  | product
  | cartesianProduct
  | inclusion
  | selection
  | functionalType
  | aggregation
  | inverse
  | range
  | projection
  deriving DecidableEq, Repr, Inhabited

namespace Op

def label : Op → String
  | composition      => "composition"
  | product          => "product"
  | cartesianProduct => "Cartesian product"
  | inclusion        => "inclusion"
  | selection        => "selection"
  | functionalType   => "functional type"
  | aggregation      => "aggregation"
  | inverse          => "inverse"
  | range            => "range"
  | projection       => "projection"

def all : List Op :=
  [composition, product, cartesianProduct, inclusion, selection, functionalType, aggregation,
   inverse, range, projection]

def role : Op → Role
  | composition | product | inclusion | aggregation | inverse | projection => .element
  | cartesianProduct | selection | functionalType | range => .type

end Op

-- The name by which two occurrences of a kind or gap are known to be equal: either given, or
-- different from all others.
inductive Ident where
  | given (text : String)
  | fresh (serial : Nat)
  deriving DecidableEq, Repr, Inhabited

def Ident.text : Ident → String
  | given s => s
  | fresh n => "kind-" ++ Nat.repr n

-- A category of a level, with the atoms that it is made of.
structure Category where
  name  : String
  atoms : List String
  deriving DecidableEq, Repr, Inhabited

-- What is known of a kind apart from other terms.
structure KindHead where
  serial     : Nat
  id         : Ident
  cls        : KindClass
  name       : String
  sort       : TermSort
  altname    : Option String := none
  article    : Option String := none
  code       : Option String := none
  categories : List Category := []
  deriving DecidableEq, Repr, Inhabited

-- What is known of a gap apart from its type.
structure GapHead where
  serial : Nat
  id     : Ident
  name   : String
  role   : Role
  sort   : Option TermSort := none
  deriving DecidableEq, Repr, Inhabited

-- An application keeps the functional type that it was given when it was built. Numbers and flags
-- occur only as arguments: they pick the position of a projection. `nothing` holds the place of a
-- term that is not there: nothing is built from it, and every question about it fails.
inductive Term where
  | kind (head : KindHead) (type domain codomain constr : Option Term)
  | gap (head : GapHead) (type : Option Term)
  | app (serial : Nat) (op : Op) (args : List Term) (type : Option Term)
  | number (n : Int)
  | flag (b : Bool)
  | nothing
  deriving Inhabited

namespace Term

def serial? : Term → Option Nat
  | kind h .. => some h.serial
  | gap h _   => some h.serial
  | app n ..  => some n
  | _         => none

def position? : Term → Option Int
  | number n => some n
  | flag b   => some (if b then 1 else 0)
  | _        => none

def same (t u : Term) : Bool :=
  match t.serial?, u.serial? with
  | some m, some n => m == n
  | none, none     => t.position? == u.position?
  | _, _           => false

instance : BEq Term := ⟨same⟩

def isKind : Term → Bool
  | kind .. => true
  | _       => false

def cls? : Term → Option KindClass
  | kind h .. => some h.cls
  | _         => none

def op? : Term → Option Op
  | app _ op .. => some op
  | _           => none

def className : Term → String
  | kind h .. => h.cls.label
  | gap ..    => "Gap"
  | _         => "Application"

def hasClass (c : KindClass) (t : Term) : Bool :=
  t.cls? == some c

def hasOp (op : Op) (t : Term) : Bool :=
  t.op? == some op

def isObjectType : Term → Bool := hasClass .objectType
def isVariable   : Term → Bool := hasClass .variable
def isConstant   : Term → Bool := hasClass .constant

def isRelation (t : Term) : Bool :=
  t.cls?.any KindClass.isRelation

def isElementKind (t : Term) : Bool :=
  t.cls?.any KindClass.isElement

def role? : Term → Option Role
  | kind h .. => some h.cls.role
  | gap h _   => some h.role
  | app _ op .. => some op.role
  | _         => none

def sort? : Term → Option TermSort
  | kind h .. => some h.sort
  | gap h _   => h.sort
  | _         => none

def type? : Term → Option Term
  | kind _ type ..  => type
  | gap _ type      => type
  | app _ _ _ type  => type
  | _               => none

def constr? : Term → Option Term
  | kind _ _ _ _ constr => constr
  | _                   => none

def head? : Term → Option KindHead
  | kind h .. => some h
  | _         => none

def renew (k : Term) : Term → Term
  | kind h ty d c s =>
    if k.serial? == some h.serial then k
    else kind h (renewOption ty) (renewOption d) (renewOption c) (renewOption s)
  | gap h ty => gap h (renewOption ty)
  | app n op args ty => app n op (renewList args) (renewOption ty)
  | number n => number n
  | flag b => flag b
  | nothing => nothing
where
  renewOption : Option Term → Option Term
    | none   => none
    | some t => some (renew k t)
  renewList : List Term → List Term
    | []      => []
    | t :: ts => renew k t :: renewList ts

end Term
end Inquiry
