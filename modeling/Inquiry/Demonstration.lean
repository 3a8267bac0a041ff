import Inquiry.Domain.Statistics
import Inquiry.Graph.Filling
import Inquiry.Markup.Reader
import Inquiry.Markup.Writer

/-!
Demonstrations: terms and kinds are made and printed, and a design is stored and restored. Kinds
have identifiers of their own, which are masked in what is shown.
-/

namespace Inquiry
namespace Demonstration

def paragraph (lines : List String) : String :=
  String.join (lines.map (· ++ "\n"))

/-! Terms -/

def gap (name : String) (role : Int) (type : Option Term) : SessionM Term := do
  ofExcept (Term.makeGap (← SessionM.serials 1) name role none type none)

def openType (name : String) : SessionM Term :=
  gap name 0 none

def openElement (name : String) (domain codomain : Term) : SessionM Term := do
  gap name 1 (some (← SessionM.app .functionalType [domain, codomain]))

def domainOp (t : Term) : Except Failure String :=
  match t.type? with
  | some (.app _ _ (.app _ op ..  :: _) _) => .ok op.label
  | _ => .error .absent

def terms : SessionM String := do
  let c ← openType "c"
  let d ← openType "d"
  let e ← openType "e"
  let f ← openType "f"
  let u ← openElement "u" c d
  let x ← openElement "x" c d
  let y ← openElement "y" c e
  let z ← openElement "z" e f
  let pair ← SessionM.app .product [x, y]
  let chain ← SessionM.app .composition [z, y]
  let part ← SessionM.app .inclusion [u, x]
  let whole ← SessionM.app .inclusion [u, u, u, u]
  let inverse ← SessionM.app .inverse [u]
  let first ← SessionM.app .projection [c, d, e, .number 1]
  let second ← SessionM.app .projection [c, d, e, .number 2]
  let both ← SessionM.app .product [first, second]
  return paragraph ([c, d, e, f, u, x, y, z, pair, chain, part, whole, inverse].map Term.described)
    ++ paragraph
      ["\n",
       "for navigating the last term, the structure of its type, and the name of its domain's "
         ++ "top-level operation, consider the following code:\n",
       "    print(term5.type.args[0].op.name)\n",
       "executing this code yields:",
       ← ofExcept (domainOp inverse),
       "\n",
       "relationship between projection and product:"]
    ++ paragraph ([first, second, both].map Term.described)

/-! Kinds -/

def mask (ids : List String) (s : String) : String :=
  (ids.mergeSort fun i j => j.length ≤ i.length).foldl (fun s i => s.replace i "<id>") s

def idOf (t : Term) : String :=
  (t.head?.map (·.id.text)).getD ""

def kindText (t : Term) (info : String) : String :=
  paragraph [t.printed, t.described, info, idOf t, "\n"]

def usesText (us : Uses) : String :=
  let entry (k : Term) := "('" ++ idOf k ++ "', " ++ k.printed ++ ")"
  "OrderedDict([" ++ ", ".intercalate (us.map entry) ++ "])"

def printedOption (t : Option Term) : String :=
  (t.map Term.printed).getD "None"

def kinds : SessionM String := do
  let person ← SessionM.make { cls := .objectType, name := "person" }
  let household ← SessionM.make { cls := .objectType, name := "household" }
  let livesIn ← SessionM.make
    { cls := .objectTypeRelation, name := "lives in"
      domain := some person, codomain := some household }
  let duration ← SessionM.make { cls := .phenomenon, name := "duration" }
  let age ← SessionM.make
    { cls := .variable, name := "age", domain := some person, codomain := some duration }
  let amount ← SessionM.make { cls := .phenomenon, name := "amount" }
  let income ← SessionM.make
    { cls := .variable, name := "income", domain := some person, codomain := some amount }
  let constr ← SessionM.app .product [age, income]
  let design ← SessionM.make
    { cls := .datasetDesign, name := "age and income", constr := some constr }
  let wage ← SessionM.make { cls := .constant, name := "minimum wage", codomain := some amount }
  let shown :=
    [(person, "A person like you and me"),
     (household, "A community in which a person lives, possibly together with other persons"),
     (livesIn, "The household a person is a member of"), (duration, "A length of time"),
     (age, "The length of time since a person was born"), (amount, "A quantity of money"),
     (income, "The amount of money a person earns in a year"),
     (wage, "The legal minimum amount of money a working person earns in a year"),
     (design, "Ages and incomes of persons")]
  let (stored, w) := (ExceptT.run (Term.structureOfKind design)).run { uses := [] }
  let xml := (← ofExcept stored).render
  let bare := match design with
    | .kind h _ d c _ => Term.kind h none d c none
    | t               => t
  let root ← ofExcept (Markup.Element.parse xml)
  let next ← SessionM.serials 0
  let (restored, r) := (ExceptT.run (Term.restore w.uses root)).run { subject := bare, next }
  ofExcept restored
  return mask (shown.map fun (k, _) => idOf k)
    (paragraph
        ["creating and printing object types, object type relations, dataset designs, etc. and their "
          ++ "info:", "\n"]
      ++ String.join (shown.map fun (k, info) => kindText k info)
      ++ paragraph
        ["the internal structure of the 'age and income' dataset design",
         "(printing 'constr' as well as pretty-printing 'constr'):",
         constr.printed, constr.described, "\n",
         "code for a round trip of generating and parsing xml:", "\n",
         "    dsdxml = ET.tostring(dsd.getxml().getroot())",
         "    dsd.constr = None",
         "    dsd.type = None",
         "    dsdroot = ET.XML(dsdxml)",
         "    dsd.parsexml(dsdroot)",
         "    print(dsd.constr)",
         "    print(dsd.type)", "\n",
         "executing the above code yields:",
         usesText w.uses, printedOption r.subject.constr?, printedOption r.subject.type?, "\n",
         "the xml for the structure of the 'age and income' dataset design:",
         "b'" ++ xml ++ "'"])

/-! Words and the store -/

def crimeWordList : String :=
  paragraph (Domain.crimeWords.flatMap fun
    | (.text s, _)   => [s]
    | (.group ws, _) => ws)

def typeClasses : List String :=
  ["ObjectType", "Phenomenon", "Quantity", "Measure", "Unit", "Representation", "One",
   "Level", "CodeList"]

def elementClasses : List String :=
  ["DatasetDesign", "ObjectTypeInclusion", "DatasetDescription", "PhenomenonMeasureMapping",
   "MeasureRepresentationMapping", "ObjectTypeRelation", "Variable", "Constant", "Operator"]

def fill (ks : List Term) : Store.StoreM Unit := do
  Store.clear
  let (types, elements) := Store.divide ks typeClasses elementClasses
  Store.fillNodes types "1" "One"
  Store.fillEdges elements

def store : SessionM String := do
  let d ← Domain.build Domain.statistics
  return (Store.run (fill d.kinds)).2.printed

end Demonstration
end Inquiry
