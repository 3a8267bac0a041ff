import Inquiry.Domain.Basic
import Inquiry.Model.Base

/-!
The domain of persons, addresses, municipalities, jobs, companies, dates and crimes. Its kinds are
those of the base model.
-/

namespace Inquiry
namespace Domain

def statisticsKinds : List String :=
  ["persoon", "adres", "gemeente", "baan", "bedrijf", "getal", "datum", "tekst", "gemeentenamen",
   "straatnamen", "geslachten", "huisnummers", "namen", "beroepen", "activiteiten", "woont op",
   "ligt in", "werknemer", "werkgever", "gevestigd op", "leeftijd", "inkomen", "geslacht",
   "geboortedatum", "naam", "huisnummer", "straatnaam", "gemeentenaam", "salaris", "functie",
   "omzet", "economische hoofdactiviteit", "man", "vrouw", "(/)", "persoon_id", "adres_id",
   "gemeente_id", "baan_id", "bedrijf_id", "woont_op", "ligt_in", "bedrijf_id"]
    ++ Model.professions ++ Model.activities ++ "Tjalling" :: Model.streets ++
  ["een(persoon)", "een(gemeente)", "een(adres)", "een(baan)", "een(bedrijf)", "alle(persoon)",
   "alle(adres)", "alle(gemeente)", "alle(baan)", "alle(bedrijf)", "delict", "dagen", "maanden",
   "identificator", "gepleegd in", "gepleegd op", "SCM code level 0", "SCM code level 1",
   "SCM code level 2", "SCM code level 3", "soort level 0", "soort level 1", "soort level 2",
   "soort level 3", "aantal verdachten", "dag", "maand", "delict_id", "datum_id", "een(delict)",
   "een(datum)", "alle(delict)", "alle(datum)"]

def counted : List String :=
  ["persoon", "adres", "gemeente", "baan", "bedrijf", "delict", "datum"]

def namePairs (rows : List (List String)) : List (String × String) :=
  rows.filterMap fun
    | a :: _ :: b :: _ => some (a, b)
    | _                => none

def namesOf : List String → List String
  | a :: _ :: rest => a :: namesOf rest
  | _              => []

def nameLists (rows : List (List String)) : List (String × List String) :=
  rows.filterMap fun row =>
    match namesOf row with
    | a :: ns => some (a, ns)
    | []      => none

def statistics : Blueprint where
  nodes := Model.baseNodes
  elements := Model.baseElements
  constants := Model.uncodedConstants
  coded := Model.crimeCodes.map (fun (code, label) => (label, Model.crimeLevel code, code))
    ++ Model.days.zipIdx.map (fun (name, i) => (name, "dagen", toString (i + 1)))
    ++ Model.months.map (fun name => (name, "maanden", name))
  municipalities := Model.municipalities.map (fun name => (name, "gemeentenamen", name))
    ++ [("Onbekend", "gemeentenamen", "GM0999")]
  composed := [("inwoner", ["ligt in", "woont op"])]
  listed := statisticsKinds
  counting := counted.map ("een(" ++ · ++ ")")
  together := counted.map ("alle(" ++ · ++ ")")
  designs :=
    ["persoon", "adres", "gemeente", "baan", "bedrijf", "delict", "datum"].filterMap fun name =>
    Model.base.designs.find? (·.name == name)
  defaults := nameLists Model.base.defaults
  aggregation :=
    [("leeftijd", "avg"), ("inkomen", "sum"), ("een(persoon)", "sum"), ("salaris", "sum"),
     ("omzet", "sum"), ("aantal verdachten", "avg")]
  preferred := namePairs Model.base.preferred
  ordering := namePairs Model.base.ordering
  orientation := namePairs Model.base.orientation ++ [("inwoner", "persoon")]
  override := namePairs Model.base.override
  whichWay := namePairs Model.base.whichWay
  helpers := [("werkgever", "in", ["gevestigd op"])]
  pronouns := namePairs Model.base.pronouns
  senses := statisticsSenses
  monthWords := monthWords
  crimeWords := crimeWords
  lateSenses := crimeSenses

end Domain
end Inquiry
