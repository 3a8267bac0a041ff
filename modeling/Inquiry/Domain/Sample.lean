import Inquiry.Domain.Basic

/-!
A small domain of persons, addresses, municipalities, provinces, jobs and companies.
-/

namespace Inquiry
namespace Domain

def sampleNodes : List Node :=
  [("ObjectType", ["persoon", "adres", "gemeente", "provincie", "bedrijf", "baan"]),
   ("Quantity", ["getal", "datum"]),
   ("Phenomenon",
     ["tekst", "gemeentenamen", "provincienamen", "straatnamen", "geslachten", "huisnummers",
      "namen", "identificator", "activiteiten", "beroepen"])].flatMap fun (sort, names) =>
    names.map fun name => ⟨name, sort, none⟩

def sampleRelations : List (String × String × String) :=
  [("woont op", "persoon", "adres"), ("ligt in", "adres", "gemeente"),
   ("deel van", "gemeente", "provincie"), ("werknemer", "baan", "persoon"),
   ("werkgever", "baan", "bedrijf"), ("gevestigd op", "bedrijf", "adres")]

def sampleVariables : List (String × String × String) :=
  [("leeftijd", "persoon", "getal"), ("inkomen", "persoon", "getal"),
   ("lengte", "persoon", "getal"), ("gewicht", "persoon", "getal"),
   ("geslacht", "persoon", "geslachten"), ("geboortedatum", "persoon", "datum"),
   ("naam", "persoon", "namen"), ("huisnummer", "adres", "huisnummers"),
   ("straatnaam", "adres", "straatnamen"), ("gemeentenaam", "gemeente", "gemeentenamen"),
   ("provincienaam", "provincie", "provincienamen"), ("functie", "baan", "beroepen"),
   ("salaris", "baan", "getal"), ("omzet", "bedrijf", "getal"),
   ("economische hoofdactiviteit", "bedrijf", "activiteiten"),
   ("persoon_id", "persoon", "identificator"), ("adres_id", "adres", "identificator"),
   ("gemeente_id", "gemeente", "identificator"), ("provincie_id", "provincie", "identificator"),
   ("woont_op", "persoon", "identificator"), ("ligt_in", "adres", "identificator"),
   ("deel_van", "gemeente", "identificator"), ("baan_id", "baan", "identificator"),
   ("bedrijf_id", "bedrijf", "identificator"), ("een(persoon)", "persoon", "getal"),
   ("een(adres)", "adres", "getal"), ("een(gemeente)", "gemeente", "getal"),
   ("een(baan)", "baan", "getal"), ("een(bedrijf)", "bedrijf", "getal"),
   ("alle(persoon)", "persoon", "1"), ("alle(baan)", "baan", "1")]

def sampleElements : List (String × String × String × String × Option String) :=
  Model.elements sampleRelations
    (sampleVariables.map fun (name, domain, codomain) => (name, domain, codomain, none))

def sampleConstants : List (String × List String) :=
  [("gemeentenamen", ["Den Haag", "Delft", "Rotterdam", "Utrecht", "Leiden"]),
   ("provincienamen", ["Zuid-Holland"]), ("straatnamen", Model.streets),
   ("namen",
     ["Tjalling", "Maartje", "Emma", "John", "Hans", "Mirjam", "Petra", "Karsten", "Thor",
      "Kirsten", "Marcel", "Irene", "Robert", "Ellen", "Chris", "Rachel", "Jacob", "Johanna",
      "Jeroen", "David", "Esther", "Diana", "Mathilde", "Henriette", "Sander", "Harry", "Barry",
      "Alex", "Samantha", "Bob", "Richard", "Jack", "Jill", "Sandra", "Peter", "Sabine", "Ronald",
      "Linda", "Tim", "Tom", "Selena", "Gerard", "Aart", "Marjan", "Erik", "Arnout", "Thea",
      "Jacobiene", "Ronaldo", "Gaby", "Guido"]),
   ("geslachten", ["man", "vrouw"]), ("beroepen", Model.professions),
   ("activiteiten", Model.activities)]

def firstNames : List String :=
  ["Tjalling", "Maartje", "Emma", "John", "Hans", "Mirjam", "Petra", "Karsten", "Thor", "Kirsten",
   "Marcel", "Irene", "Robert", "Ellen", "Chris", "Rachel", "Jacob", "Johanna", "David", "Esther",
   "Diana", "Mathilde", "Jeroen", "Henriette", "Sander", "Harry", "Barry", "Alex", "Samantha",
   "Bob", "Richard", "Jack", "Jill", "Sandra", "Peter", "Sabine", "Ronald", "Linda", "Tim", "Tom",
   "Selena", "Gerard", "Aart", "Marjan", "Erik", "Arnout", "Thea", "Jacobiene", "Ronaldo", "Gaby"]

def sampleSenses : List Sense :=
  personSenses ++ ⟨"Den Haag", none, ["den haag", "'s-Gravenhage"]⟩
    :: nameSenses ["Delft", "Rotterdam", "Utrecht", "Leiden"] ++ jobSenses
    ++ nameSenses (firstNames ++ Model.streets) ++ workSenses

def sampleKinds : List String :=
  ["persoon", "adres", "gemeente", "provincie", "baan", "bedrijf", "getal", "datum", "tekst",
   "gemeentenamen", "provincienamen", "straatnamen", "geslachten", "huisnummers", "namen",
   "beroepen", "activiteiten", "woont op", "ligt in", "werknemer", "werkgever", "gevestigd op",
   "leeftijd", "inkomen", "gewicht", "lengte", "geslacht", "geboortedatum", "naam", "huisnummer",
   "straatnaam", "gemeentenaam", "salaris", "functie", "omzet", "economische hoofdactiviteit",
   "man", "vrouw", "(/)", "persoon_id", "adres_id", "gemeente_id", "provincie_id", "baan_id",
   "bedrijf_id", "Den Haag", "Delft", "Rotterdam", "Utrecht", "Leiden", "Zuid-Holland"]
    ++ Model.professions ++ Model.activities ++ firstNames ++ Model.streets

def sampleDesigns : List Design :=
  [⟨"persoon",
      [⟨"persoon_id", "persoon", "identificator"⟩, ⟨"naam", "persoon", "namen"⟩,
       ⟨"leeftijd", "persoon", "getal"⟩, ⟨"lengte", "persoon", "getal"⟩,
       ⟨"gewicht", "persoon", "getal"⟩, ⟨"geslacht", "persoon", "geslachten"⟩,
       ⟨"inkomen", "persoon", "getal"⟩, ⟨"woont_op", "persoon", "identificator"⟩]⟩,
   Model.addressDesign,
   ⟨"gemeente",
      [⟨"gemeente_id", "gemeente", "identificator"⟩,
       ⟨"gemeentenaam", "gemeente", "gemeentenamen"⟩, ⟨"deel_van", "gemeente", "identificator"⟩]⟩,
   ⟨"provincie",
      [⟨"provincie_id", "provincie", "identificator"⟩,
       ⟨"provincienaam", "provincie", "provincienamen"⟩]⟩,
   Model.jobDesign, Model.companyDesign]

def sample : Blueprint where
  nodes := sampleNodes
  elements := sampleElements
  constants := sampleConstants.flatMap fun (codomain, names) =>
    names.map fun name => (name, codomain)
  composed := [("inwoner", ["ligt in", "woont op"])]
  listed := sampleKinds
  designs := sampleDesigns
  defaults :=
    [("persoon", ["naam"]), ("adres", ["straatnaam", "huisnummer"]), ("gemeente", ["gemeentenaam"]),
     ("baan", ["baan_id"]), ("bedrijf", ["bedrijf_id"])]
  aggregation :=
    [("leeftijd", "avg"), ("inkomen", "sum"), ("een(persoon)", "sum"), ("salaris", "sum"),
     ("omzet", "sum")]
  preferred :=
    [("namen", "naam"), ("huisnummers", "huisnummer"), ("geslachten", "geslacht"),
     ("gemeentenamen", "gemeentenaam"), ("straatnamen", "straatnaam"), ("beroepen", "functie"),
     ("activiteiten", "economische hoofdactiviteit")]
  ordering := [("adres", "een(persoon)"), ("gemeente", "een(persoon)")]
  override := [("beroepen", "persoon"), ("geslachten", "persoon"), ("activiteiten", "bedrijf")]
  whichWay := [("baan", "werkgever")]
  helpers := [("werkgever", "in", ["gevestigd op"])]
  pronouns := [("persoon", "wie"), ("adres", "waar"), ("gemeente", "waar")]
  senses := sampleSenses

end Domain
end Inquiry
