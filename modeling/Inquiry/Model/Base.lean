import Inquiry.CodeList.Basic
import Inquiry.Model.CrimeCodes
import Inquiry.Model.Municipalities
import Inquiry.Session.Opening

/-!
The model that a session opens on unless another one is given: persons, addresses, municipalities,
jobs, companies, dates and crimes.
-/

namespace Inquiry
namespace Model

def baseNodes : List Node :=
  [⟨"persoon", "ObjectType", some "personen"⟩, ⟨"adres", "ObjectType", some "adressen"⟩,
   ⟨"gemeente", "ObjectType", some "gemeenten"⟩, ⟨"baan", "ObjectType", some "banen"⟩,
   ⟨"bedrijf", "ObjectType", some "bedrijven"⟩, ⟨"datum", "ObjectType", none⟩,
   ⟨"delict", "ObjectType", some "delicten"⟩, ⟨"getal", "Quantity", none⟩,
   ⟨"tekst", "Phenomenon", none⟩, ⟨"gemeentenamen", "Phenomenon", none⟩,
   ⟨"straatnamen", "Phenomenon", none⟩, ⟨"geslachten", "Phenomenon", none⟩,
   ⟨"huisnummers", "Phenomenon", none⟩, ⟨"namen", "Phenomenon", none⟩,
   ⟨"beroepen", "Phenomenon", none⟩, ⟨"activiteiten", "Phenomenon", none⟩,
   ⟨"dagen", "Phenomenon", none⟩, ⟨"maanden", "Phenomenon", none⟩,
   ⟨"identificator", "Phenomenon", none⟩, ⟨"SCM code level 0", "Level", none⟩,
   ⟨"SCM code level 1", "Level", none⟩, ⟨"SCM code level 2", "Level", none⟩,
   ⟨"SCM code level 3", "Level", none⟩]

-- The name, the domain and the codomain.
def baseRelations : List (String × String × String) :=
  [("woont op", "persoon", "adres"), ("ligt in", "adres", "gemeente"),
   ("werknemer", "baan", "persoon"), ("werkgever", "baan", "bedrijf"),
   ("gevestigd op", "bedrijf", "adres"), ("gepleegd in", "delict", "gemeente"),
   ("gepleegd op", "delict", "datum")]

-- The name, the domain, the codomain and the article.
def baseVariables : List (String × String × String × Option String) :=
  [("leeftijd", "persoon", "getal", some "de"), ("inkomen", "persoon", "getal", some "het"),
   ("geslacht", "persoon", "geslachten", some "het"),
   ("geboortedatum", "persoon", "datum", some "de"), ("naam", "persoon", "namen", some "de"),
   ("huisnummer", "adres", "huisnummers", some "het"),
   ("straatnaam", "adres", "straatnamen", some "de"),
   ("gemeentenaam", "gemeente", "gemeentenamen", some "de"),
   ("salaris", "baan", "getal", some "het"), ("functie", "baan", "beroepen", some "de"),
   ("omzet", "bedrijf", "getal", some "de"),
   ("economische hoofdactiviteit", "bedrijf", "activiteiten", some "de"),
   ("persoon_id", "persoon", "identificator", none), ("adres_id", "adres", "identificator", none),
   ("gemeente_id", "gemeente", "identificator", none), ("baan_id", "baan", "identificator", none),
   ("bedrijf_id", "bedrijf", "identificator", none), ("woont_op", "persoon", "identificator", none),
   ("ligt_in", "adres", "identificator", none), ("bedrijf_id", "bedrijf", "identificator", none),
   ("een(persoon)", "persoon", "getal", none), ("een(gemeente)", "gemeente", "getal", none),
   ("een(adres)", "adres", "getal", none), ("een(baan)", "baan", "getal", none),
   ("een(bedrijf)", "bedrijf", "getal", none), ("alle(persoon)", "persoon", "1", none),
   ("alle(adres)", "adres", "1", none), ("alle(gemeente)", "gemeente", "1", none),
   ("alle(baan)", "baan", "1", none), ("alle(bedrijf)", "bedrijf", "1", none),
   ("soort level 0", "delict", "SCM code level 0", some "het"),
   ("soort level 1", "delict", "SCM code level 1", some "het"),
   ("soort level 2", "delict", "SCM code level 2", some "het"),
   ("soort level 3", "delict", "SCM code level 3", some "het"),
   ("aantal verdachten", "delict", "getal", some "het"), ("dag", "datum", "dagen", some "de"),
   ("maand", "datum", "maanden", some "de"), ("delict_id", "delict", "identificator", none),
   ("datum_id", "datum", "identificator", none), ("een(delict)", "delict", "getal", none),
   ("een(datum)", "datum", "getal", none), ("alle(delict)", "delict", "1", none),
   ("alle(datum)", "datum", "1", none)]

-- The sort stands after the name of an element.
def elements (rels : List (String × String × String))
    (vars : List (String × String × String × Option String)) :
    List (String × String × String × String × Option String) :=
  rels.map (fun (name, domain, codomain) =>
      (name, "ObjectTypeRelation", domain, codomain, none))
    ++ vars.map (fun (name, rest) => (name, "Variable", rest))

def baseElements : List (String × String × String × String × Option String) :=
  elements baseRelations baseVariables

def professions : List String :=
  ["kolonel", "wethouder", "griffier", "seismoloog", "watermanager", "oogarts"]

def activities : List String :=
  ["industrie", "onderwijs", "bouwnijverheid", "openbaar bestuur", "zakelijke dienstverlening",
   "gezondheidszorg"]

def streets : List String :=
  ["Aart van der Leeuwlaan", "Prins Mauritsstraat", "Westlandseweg", "Meppelerweg",
   "Lutherse Burgwal", "Coolsingel", "Blaak", "Amsterdamsestraatweg", "Europalaan",
   "Joseph Haydnlaan", "Rapenburg", "Witte Singel", "Haagweg", "Klikspaanweg"]

def uncodedConstants : List (String × String) :=
  [("geslachten", ["man", "vrouw"]), ("beroepen", professions), ("activiteiten", activities),
   ("namen", ["Tjalling"]), ("straatnamen", streets)].flatMap fun (codomain, names) =>
    names.map fun name => (name, codomain)

def days : List String :=
  ["een", "twee", "drie", "vier", "vijf", "zes", "zeven", "acht", "negen", "tien", "elf", "twaalf",
   "dertien", "veertien", "vijftien", "zestien", "zeventien", "achttien", "negentien", "twintig",
   "eenentwintig", "tweeentwintig", "drieentwintig", "vierentwintig", "vijfentwintig",
   "zesentwintig", "zevenentwintig", "achtentwintig", "negenentwintig", "dertig", "eenendertig"]

def months : List String :=
  ["januari", "februari", "maart", "april", "mei", "juni", "juli", "augustus", "september",
   "oktober", "november", "december"]

def baseSort (name : String) : String :=
  if name == "1" then "One" else (baseNodes.find? (·.name == name)).elim "None" (·.sort)

def baseEnd (name : String) : EndName :=
  ⟨name, baseSort name⟩

def constantEdge (codomain name : String) (code : Option String) : EdgeSpec :=
  { name, sort := "Constant", domain := baseEnd "1", codomain := baseEnd codomain, code }

def crimeLevel (code : String) : String :=
  "SCM code level " ++ toString (CodeList.level code)

def storedName (name : String) : String :=
  String.join (name.toList.map fun c => if c == '\ufffd' then "\u00ef\u00bf\u00bd" else c.toString)

def baseConstants : List EdgeSpec :=
  uncodedConstants.map (fun (name, codomain) => constantEdge codomain name none)
    ++ crimeCodes.map (fun (code, label) => constantEdge (crimeLevel code) label (some code))
    ++ days.zipIdx.map (fun (name, i) => constantEdge "dagen" name (some (toString (i + 1))))
    ++ months.map (fun name => constantEdge "maanden" name (some name))
    ++ (municipalities.map storedName).map (fun name =>
      constantEdge "gemeentenamen" name (some name))
    ++ [constantEdge "gemeentenamen" "Onbekend" (some "GM0999")]

def addressDesign : Design :=
  ⟨"adres",
    [⟨"adres_id", "adres", "identificator"⟩, ⟨"straatnaam", "adres", "straatnamen"⟩,
     ⟨"huisnummer", "adres", "huisnummers"⟩, ⟨"ligt_in", "adres", "identificator"⟩]⟩

def jobDesign : Design :=
  ⟨"baan",
    [⟨"baan_id", "baan", "identificator"⟩, ⟨"functie", "baan", "beroepen"⟩,
     ⟨"salaris", "baan", "getal"⟩, ⟨"werknemer", "baan", "persoon"⟩,
     ⟨"werkgever", "baan", "persoon"⟩]⟩

def companyDesign : Design :=
  ⟨"bedrijf",
    [⟨"bedrijf_id", "bedrijf", "identificator"⟩,
     ⟨"economische hoofdactiviteit", "bedrijf", "activiteiten"⟩,
     ⟨"omzet", "bedrijf", "getal"⟩, ⟨"gevestigd_op", "bedrijf", "adres"⟩]⟩

def base : Model where
  nodes := baseNodes
  edges := baseElements.map (fun (name, sort, domain, codomain, article) =>
      { name, sort, domain := baseEnd domain, codomain := baseEnd codomain, article })
    ++ baseConstants
  defaults :=
    [["persoon", "ObjectType", "naam", "Variable"],
     ["adres", "ObjectType", "straatnaam", "Variable", "huisnummer", "Variable"],
     ["gemeente", "ObjectType", "gemeentenaam", "Variable"],
     ["baan", "ObjectType", "baan_id", "Variable"],
     ["bedrijf", "ObjectType", "bedrijf_id", "Variable"],
     ["delict", "ObjectType"],
     ["datum", "ObjectType", "dag", "Variable", "maand", "Variable"]]
  preferred :=
    [["namen", "Phenomenon", "naam", "Variable"],
     ["huisnummers", "Phenomenon", "huisnummer", "Variable"],
     ["geslachten", "Phenomenon", "geslacht", "Variable"],
     ["gemeentenamen", "Phenomenon", "gemeentenaam", "Variable"],
     ["straatnamen", "Phenomenon", "straatnaam", "Variable"],
     ["beroepen", "Phenomenon", "functie", "Variable"],
     ["activiteiten", "Phenomenon", "economische hoofdactiviteit", "Variable"],
     ["maanden", "Phenomenon", "maand", "Variable"],
     ["dagen", "Phenomenon", "dag", "Variable"],
     ["SCM code level 0", "Level", "soort level 0", "Variable"],
     ["SCM code level 1", "Level", "soort level 1", "Variable"],
     ["SCM code level 2", "Level", "soort level 2", "Variable"],
     ["SCM code level 3", "Level", "soort level 3", "Variable"]]
  whichWay := [["baan", "ObjectType", "werkgever", "ObjectTypeRelation"]]
  override :=
    [["beroepen", "Phenomenon", "persoon", "ObjectType"],
     ["geslachten", "Phenomenon", "persoon", "ObjectType"],
     ["activiteiten", "Phenomenon", "bedrijf", "ObjectType"],
     ["SCM code level 0", "Level", "delict", "ObjectType"],
     ["SCM code level 1", "Level", "delict", "ObjectType"],
     ["SCM code level 2", "Level", "delict", "ObjectType"],
     ["SCM code level 3", "Level", "delict", "ObjectType"]]
  orientation :=
    [["werknemer", "ObjectTypeRelation", "persoon", "ObjectType"],
     ["werkgever", "ObjectTypeRelation", "bedrijf", "ObjectType"],
     ["woont op", "ObjectTypeRelation", "persoon", "ObjectType"],
     ["gevestigd op", "ObjectTypeRelation", "bedrijf", "ObjectType"],
     ["ligt in", "ObjectTypeRelation", "adres", "ObjectType"]]
  ordering :=
    [["adres", "ObjectType", "een(persoon)", "Variable"],
     ["gemeente", "ObjectType", "een(persoon)", "Variable"],
     ["bedrijf", "ObjectType", "omzet", "Variable"],
     ["baan", "ObjectType", "salaris", "Variable"]]
  pronouns :=
    [["persoon", "ObjectType", "wie", "str"],
     ["adres", "ObjectType", "waar", "str"],
     ["gemeente", "ObjectType", "waar", "str"]]
  designs :=
    [addressDesign, jobDesign, companyDesign,
     ⟨"datum",
      [⟨"datum_id", "datum", "identificator"⟩, ⟨"dag", "datum", "dagen"⟩,
       ⟨"maand", "datum", "maanden"⟩]⟩,
     ⟨"delict",
      [⟨"delict_id", "delict", "identificator"⟩, ⟨"soort level 0", "delict", "SCM code level 0"⟩,
       ⟨"soort level 1", "delict", "SCM code level 1"⟩,
       ⟨"soort level 2", "delict", "SCM code level 2"⟩,
       ⟨"soort level 3", "delict", "SCM code level 3"⟩, ⟨"aantal verdachten", "delict", "getal"⟩,
       ⟨"gepleegd_op", "delict", "identificator"⟩, ⟨"gepleegd_in", "delict", "identificator"⟩]⟩,
     ⟨"gemeente",
      [⟨"gemeente_id", "gemeente", "identificator"⟩,
       ⟨"gemeentenaam", "gemeente", "gemeentenamen"⟩]⟩,
     ⟨"persoon",
      [⟨"persoon_id", "persoon", "identificator"⟩, ⟨"naam", "persoon", "namen"⟩,
       ⟨"leeftijd", "persoon", "getal"⟩, ⟨"geslacht", "persoon", "geslachten"⟩,
       ⟨"inkomen", "persoon", "getal"⟩, ⟨"woont_op", "persoon", "identificator"⟩]⟩]

end Model
end Inquiry
