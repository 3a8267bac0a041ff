import Inquiry.Domain.Senses
import Inquiry.Session.Opening

/-!
Domains: the kinds that requests are about, the tables about them, and the lexicon by which they are
spoken of. A blueprint names the kinds; a domain holds them.
-/

namespace Inquiry

-- Everything here goes by name. The listed kinds come first in a domain, then the coded constants
-- and last the municipalities.
structure Blueprint where
  nodes          : List Node
  -- relations and variables: name, sort, domain, codomain and article
  elements       : List (String × String × String × String × Option String)
  -- constants with their codomain, and coded ones with their code as well
  constants      : List (String × String)
  coded          : List (String × String × String) := []
  municipalities : List (String × String × String) := []
  -- relations that are composed of others
  composed       : List (String × List String) := []
  listed         : List String
  counting       : List String := []
  together       : List String := []
  designs        : List Design := []
  defaults       : List (String × List String) := []
  aggregation    : List (String × String) := []
  preferred      : List (String × String) := []
  ordering       : List (String × String) := []
  orientation    : List (String × String) := []
  override       : List (String × String) := []
  whichWay       : List (String × String) := []
  helpers        : List (String × String × List String) := []
  pronouns       : List (String × String) := []
  senses         : List Sense := []
  -- words for kinds by their name, and words that come last
  monthWords     : List (String × String) := []
  crimeWords     : List (Phrase × String) := []
  lateSenses     : List Sense := []

structure Domain where
  kinds          : List Term := []
  lexicon        : Lexicon := []
  lateEntries    : Lexicon := []
  vocab          : List String := []
  municipalities : List Term := []
  -- the number quantity and the division
  number         : Term := .nothing
  quotient       : Term := .nothing
  -- for each object type the variable that counts its members and the one that takes them together
  counting       : List Term := []
  together       : List Term := []
  designs        : List Term := []
  defaults       : TermTable (List Term) := []
  -- how a variable is put together over many objects
  aggregation    : TermTable String := []
  preferred      : TermTable Term := []
  ordering       : TermTable Term := []
  orientation    : TermTable Term := []
  override       : TermTable Term := []
  whichWay       : TermTable Term := []
  -- the preposition and the path that follow a relation
  helpers        : TermTable (String × List Term) := []
  pronouns       : TermTable String := []
  deriving Inhabited

namespace Domain

-- The kinds that were made so far, by name.
abbrev Register := Assoc String Term

namespace Register

def kind (r : Register) (name : String) : Term :=
  (Assoc.get? r name).getD .nothing

def kinds (r : Register) (names : List String) : List Term :=
  names.map r.kind

def pairs (r : Register) (rows : List (String × String)) : TermTable Term :=
  rows.map fun (a, b) => (r.kind a, r.kind b)

def texts (r : Register) (rows : List (String × String)) : TermTable String :=
  rows.map fun (a, s) => (r.kind a, s)

def entries (r : Register) (senses : List Sense) : Lexicon :=
  senses.flatMap fun s =>
    let m : Meaning := match s.direction with
      | some d => .list [.term (r.kind s.kind), .text d]
      | none   => .term (r.kind s.kind)
    s.words.map fun w => (Phrase.text w, m)

end Register

def constant (codomain : Term) (name : String) (code : Option String) : SessionM Term :=
  SessionM.make { cls := .constant, name, codomain := Term.present codomain, code }

def division (number : Term) : SessionM Term := do
  let pair ← SessionM.app .cartesianProduct [number, number]
  SessionM.make { cls := .operator, name := "(/)", domain := some pair, codomain := some number }

def register (b : Blueprint) : SessionM Register := do
  let types ← b.nodes.mapM fun v => do
    let cls := (KindClass.ofLabel? v.sort).getD .phenomenon
    return (v.name, ← SessionM.make { cls, name := v.name, altname := v.altname })
  let types := ("1", Term.one) :: types
  let elements ← b.elements.mapM fun (name, sort, domain, codomain, article) => do
    let cls := (KindClass.ofLabel? sort).getD .variable
    return (name, ← SessionM.make
      { cls, name, article
        domain := Assoc.get? types domain, codomain := Assoc.get? types codomain })
  let constants ← b.constants.mapM fun (name, codomain) => do
    return (name, ← constant (Register.kind types codomain) name none)
  let composed ← b.composed.mapM fun (name, parts) => do
    let constr ← SessionM.app .composition (Register.kinds elements parts)
    return (name, ← SessionM.make { cls := .objectTypeRelation, name, constr := some constr })
  let division ← division (Register.kind types "getal")
  return types ++ elements ++ constants ++ composed ++ [("(/)", division)]

def operand (r : Register) (o : Operand) : SessionM Term :=
  match r.find? fun e => e.1 == o.name && e.2.isVariable with
  | some e => return e.2
  | none   => SessionM.make
      { cls := .variable, name := o.name
        domain := Assoc.get? r o.domain, codomain := Assoc.get? r o.codomain }

def design (r : Register) (d : Design) : SessionM Term := do
  let args ← d.operands.mapM (operand r)
  SessionM.make
    { cls := .datasetDesign, name := d.name, constr := some (← SessionM.app .product args) }

def lastNamed (kinds : List Term) (name : String) : Option Term :=
  kinds.reverse.find? fun k => k.head?.any (·.name == name)

def addMunicipalities (l : Lexicon) (ms : List Term) : Lexicon :=
  ms.foldl (fun l m =>
    let name := Text.lower ((m.head?.map (·.name)).getD "")
    if Assoc.has l (Phrase.text name) then l
    else
      let l := l ++ [(Phrase.text name, .term m)]
      if name == "'s-gravenhage" then Assoc.put (.text "den haag") (.term m) l else l) l

def addNamed (kinds : List Term) (l : Lexicon) (rows : List (Phrase × String)) : Lexicon :=
  rows.foldl (fun l (p, name) =>
    match lastNamed kinds name with
    | some k => Assoc.put p (.term k) l
    | none   => l) l

def putAll (l : Lexicon) (entries : Lexicon) : Lexicon :=
  entries.foldl (fun l (p, m) => Assoc.put p m l) l

def vocabulary (ps : List Phrase) : List String :=
  let words := ps.flatMap fun
    | .text s   => [s]
    | .group ws => ws
  words.foldl (fun seen w => if seen.contains w then seen else seen ++ [w]) []

def build (b : Blueprint) : SessionM Domain := do
  let r ← register b
  let coded ← b.coded.mapM fun (name, codomain, code) => constant (r.kind codomain) name (some code)
  let designs ← b.designs.mapM (design r)
  let municipalities ← b.municipalities.mapM fun (name, codomain, code) =>
    constant (r.kind codomain) name (some code)
  let kinds := r.kinds b.listed ++ coded ++ municipalities
  let late := r.entries b.lateSenses
  let lexicon := addMunicipalities (putAll [] (r.entries b.senses)) municipalities
  let lexicon := addNamed kinds lexicon (b.monthWords.map fun (w, name) => (.text w, name))
  let lexicon := putAll (addNamed kinds lexicon b.crimeWords) late
  return {
    kinds, lexicon, lateEntries := late, municipalities, designs
    vocab := vocabulary (Assoc.keys lexicon)
    number := r.kind "getal", quotient := r.kind "(/)"
    counting := r.kinds b.counting, together := r.kinds b.together
    defaults := b.defaults.map fun (a, ns) => (r.kind a, r.kinds ns)
    aggregation := r.texts b.aggregation
    preferred := r.pairs b.preferred, ordering := r.pairs b.ordering
    orientation := r.pairs b.orientation, override := r.pairs b.override
    whichWay := r.pairs b.whichWay
    helpers := b.helpers.map fun (a, w, ns) => (r.kind a, w, r.kinds ns)
    pronouns := r.texts b.pronouns }

end Domain
end Inquiry
