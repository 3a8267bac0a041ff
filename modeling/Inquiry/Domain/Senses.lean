import Inquiry.Model.Base
import Inquiry.Words.Lexicon

/-!
The words by which a request speaks of persons, addresses, jobs, companies and crimes.
-/

namespace Inquiry

-- Words that stand for one kind, and the direction of sorting that they bring along.
structure Sense where
  kind      : String
  direction : Option String
  words     : List String

namespace Domain

def personSenses : List Sense :=
  [⟨"naam", none, ["naam", "namen", "heet", "heten"]⟩, ⟨"woont op", none, ["wonen", "woont"]⟩,
   ⟨"persoon", none, ["persoon", "personen", "mens", "mensen"]⟩,
   ⟨"adres", none, ["adres", "adressen"]⟩, ⟨"gemeente", none, ["gemeente", "gemeenten"]⟩,
   ⟨"gemeentenaam", none, ["gemeentenaam"]⟩,
   ⟨"huisnummer", none, ["huisnummers", "huisnummer", "nummer"]⟩, ⟨"leeftijd", none, ["leeftijd"]⟩,
   ⟨"inkomen", none, ["inkomen"]⟩, ⟨"leeftijd", none, ["oud"]⟩,
   ⟨"leeftijd", some "desc", ["oudst", "oudste"]⟩, ⟨"leeftijd", some "asc", ["jongst", "jongste"]⟩,
   ⟨"adres", none, ["gezin", "gezinnen"]⟩, ⟨"inwoner", none, ["inwoner", "inwoners"]⟩,
   ⟨"woont op", none, ["bewoner", "bewoners"]⟩, ⟨"geslacht", none, ["geslacht", "geslachten"]⟩,
   ⟨"man", none, ["man", "mannen", "mannelijk", "mannelijke"]⟩,
   ⟨"vrouw", none, ["vrouw", "vrouwen", "vrouwelijk", "vrouwelijke"]⟩, ⟨"ligt in", none, ["ligt"]⟩,
   ⟨"inkomen", none, ["verdien", "verdient", "verdienen", "verdiend"]⟩]

def jobSenses : List Sense :=
  [⟨"kolonel", none, ["kolonel", "kolonels", "kolonellen"]⟩,
   ⟨"wethouder", none, ["wethouder", "wethouders"]⟩, ⟨"griffier", none, ["griffier", "griffiers"]⟩,
   ⟨"seismoloog", none, ["seismoloog", "seismologen"]⟩,
   ⟨"watermanager", none, ["watermanager", "watermanagers"]⟩,
   ⟨"oogarts", none, ["oogarts", "oogartsen"]⟩,
   ⟨"industrie", none, ["industrie", "industrieel", "industriele"]⟩,
   ⟨"onderwijs", none,
     ["onderwijs", "onderwijsinstelling", "onderwijsinstellingen", "school", "scholen"]⟩,
   ⟨"bouwnijverheid", none, ["bouwnijverheid", "bouwbedrijf", "bouwbedrijven"]⟩,
   ⟨"openbaar bestuur", none, ["openbaar bestuur"]⟩,
   ⟨"zakelijke dienstverlening", none,
     ["zakelijke dienstverlening", "zakelijke dienst", "zakelijke diensten"]⟩,
   ⟨"gezondheidszorg", none, ["gezondheidszorg"]⟩, ⟨"werkgever", none, ["werken", "werkt"]⟩,
   ⟨"baan", none, ["baan", "banen"]⟩]

def workSenses : List Sense :=
  [⟨"werkgever", none, ["werken", "werkt"]⟩, ⟨"bedrijf", none, ["bedrijf", "bedrijven"]⟩,
   ⟨"gevestigd op", none, ["gevestigd", "vestiging"]⟩, ⟨"salaris", none, ["salaris"]⟩,
   ⟨"economische hoofdactiviteit", none, ["activiteit", "hoofdactiviteit"]⟩,
   ⟨"beroepen", none, ["beroep", "beroepen"]⟩, ⟨"functie", none, ["functie", "functies"]⟩,
   ⟨"gemeente", none, ["woongemeente"]⟩, ⟨"omzet", none, ["omzet"]⟩,
   ⟨"werknemer", none, ["werknemer"]⟩, ⟨"werkgever", none, ["werkgever"]⟩]

-- Names are written without capitals in a request.
def nameSenses (names : List String) : List Sense :=
  names.map fun name => ⟨name, none, [Text.lower name]⟩

def statisticsSenses : List Sense :=
  personSenses ++ jobSenses ++ nameSenses ("Tjalling" :: Model.streets) ++ workSenses
    ++ [⟨"werknemer", none, ["werknemers"]⟩, ⟨"werkgever", none, ["werkgevers"]⟩]

def crimeSenses : List Sense :=
  [⟨"delict", none, ["delict", "misdrijf", "vergrijp", "overtreding"]⟩,
   ⟨"datum", none, ["datum", "data", "dag", "dagen"]⟩, ⟨"maand", none, ["maand", "maanden"]⟩,
   ⟨"aantal verdachten", none, ["verdachten", "hoeveel verdachten", "aantal verdachten"]⟩]

def monthWords : List (String × String) :=
  [("januari", "januari"), ("jan", "januari"), ("februari", "februari"), ("feb", "februari"),
   ("maart", "maart"), ("mrt", "maart"), ("april", "april"), ("apr", "april"), ("mei", "mei"),
   ("juni", "juni"), ("jun", "juni"), ("juli", "juli"), ("jul", "juli"), ("augustus", "augustus"),
   ("aug", "augustus"), ("september", "september"), ("sep", "september"), ("oktober", "oktober"),
   ("okt", "oktober"), ("november", "november"), ("nov", "november"), ("december", "december"),
   ("dec", "december")]

-- The labels of crimes with the words for them.
def crimePhrases : List (String × List Phrase) :=
  [("Vermogensmisdrijven", [.text "vermogensmisdrijf"]),
   ("Diefstal en inbraak met geweld (WvSr art. 312)",
     [.group ["stelen", "geweld"], .group ["inbreken", "geweld"], .group ["diefstal", "geweld"],
      .group ["diefstallen", "geweld"], .text "overval", .text "overvallen"]),
   ("Diefstal en inbraak zonder geweld (WvSr art. 310,311,321-325)",
     [.text "stelen", .text "inbreken", .text "diefstal", .text "diefstallen"]),
   ("Bedrog (WvSr art 326-338)", [.text "bedriegen"]),
   ("Oplichting (WvSr art. 326)", [.text "oplichten"]),
   ("Flessentrekkerij (WvSr art. 326a)", [.text "flessentrekkerij"]),
   ("Valsheidsmisdrijven (WvSr art. 208-214, 216-223, 225-234)", [.text "valsheidsmisdrijf"]),
   ("Muntmisdrijf (WvSr art. 208-214)", [.text "muntmisdrijf"]),
   ("Valsheid in geschriften (WvSr art. 225-234)", [.text "valsheid in geschriften"]),
   ("Heling (WvSr art. 416-417bis)", [.text "helen"]),
   ("Afpersing en afdreiging (WvSr art. 317-318)", [.text "afpersen"]),
   ("Bankbreuk (WvSr art. 340-343)", [.text "bankbreuk"]),
   ("Witwassen (WvSr art. 420bis-420quater)", [.text "witwassen"]),
   ("Vernieling en beschadiging (WvSr art. 350-352)", [.text "vernielen", .text "beschadigen"]),
   ("Vernieling aan auto", [.group ["vernielen", "auto"], .group ["beschadigen", "auto"]]),
   ("Vernieling aan openbaar gebouw",
     [.group ["vernielen", "gebouw"], .group ["beschadigen", "gebouw"]]),
   ("Vernieling aan middel openbaar vervoer",
     [.group ["vernielen", "trein"], .group ["beschadigen", "trein"], .group ["vernielen", "bus"],
      .group ["beschadigen", "bus"], .group ["vernielen", "tram"], .group ["beschadigen", "tram"],
      .group ["vernielen", "metro"], .group ["beschadigen", "metro"]]),
   ("Dierenmishandeling", [.text "dierenmishandeling"]),
   ("Openlijke geweldpleging tegen persoon (WvSr art. 141)",
     [.text "geweld", .text "geweldpleging"]),
   ("Huisvredebreuk (WvSr art. 138)", [.text "huisvredebreuk"]),
   ("Lokaalvredebreuk (WvSr art. 139)", [.text "lokaalvredebreuk"]),
   ("Computervredebreuk (WvSr art. 138ab, 138b)",
     [.text "computervredebreuk", .group ["computer", "inbreken"], .text "cybercrime"]),
   ("Discriminatie (WvSr art. 137c-137g)", [.text "discriminatie"]),
   ("Brandstichting/ontploffing (WvSr art. 157-158)",
     [.text "brandstichten", .text "brandstichting", .text "brandstichtingen",
      .group ["brand", "stichten"], .group ["brand", "gesticht"]]),
   ("Niet opvolgen van ambtelijk bevel (WvSr art. 184)", [.text "bevel"]),
   ("Wederspannigheid (WvSr art. 180-182)", [.text "wederspannigheid", .text "verzetten"]),
   ("Valse aangifte (WvSr art. 188)", [.text "valse aangifte"]),
   ("Verblijf van ongewenste vreemdeling (WvSr art. 197)", [.group ["verblijven", "vreemdeling"]]),
   ("Mishandeling (WvSr art. 300-306)", [.text "mishandelen"]),
   ("Bedreiging (WvSr art. 284a-285a)", [.text "bedreigen"]),
   ("Stalking (WvSr art. 285b)", [.text "stalken"]),
   ("Aanranding  (WvSr art. 246)", [.text "aanranden"]),
   ("Verkrachting (WvSr art. 242)", [.text "verkrachten"]),
   ("Schennis der eerbaarheid (WvSr art. 239)", [.group ["schenden", "eerbaarheid"]]),
   ("Ontucht met minderjarige (WvSr art. 248a-248e)", [.text "ontucht"]),
   ("Pornografie (WvSr art. 240-240b)", [.text "porno", .text "pornografie"]),
   ("Ontucht met misbruik van gezag (WvSr art. 249)", [.group ["ontucht", "gezag"]]),
   ("Vrijheidsbeneming/gijzeling (WvSr art. 282-282a)", [.text "gijzelen"]),
   ("Mensenhandel (WvSr art. 273f)", [.text "mensenhandel"]),
   ("Verkeersmisdrijven", [.text "verkeersmisdrijf"]),
   ("Verlaten plaats ongeval (WVW art. 7)",
     [.group ["verlaten", "ongeval"], .group ["wegrijden", "ongeval"]]),
   ("Rijden onder invloed (WVW art. 8)",
     [.group ["dronken", "rijden"], .text "rijden onder invloed"]),
   ("Rijden tijdens ontzegging/onbevoegd besturen (WVW art. 9)", [.text "rijden zonder rijbewijs"]),
   ("Rijden tijdens rijverbod (WVW art. 162)", [.group ["rijden", "verbod"]]),
   ("Voeren vals kenteken (WVW art. 41)", [.text "vals kenteken"]),
   ("Joyriding (WVW art. 11)", [.text "joyriden"]),
   ("Weigeren blaastest/bloedonderzoek e0d0 (WVW art. 163)", [.text "blaastest"]),
   ("Drugsmisdrijven", [.text "drugsmisdrijf"]),
   ("Harddrugs (Opiumwet art. 2)",
     [.text "harddrugs", .text "heroine", .text "cocaine", .text "xtc", .text "speed"]),
   ("Softdrugs (Opiumwet art. 3)", [.text "softdrugs", .text "wiet"]),
   ("(Vuur)wapenmisdrijven", [.text "vuurwapen", .text "wapen"]),
   ("Militaire misdrijven (WvMSr art. 96-166)", [.text "militair misdrijf"])]

def crimeWords : List (Phrase × String) :=
  crimePhrases.flatMap fun (label, ps) => ps.map (·, label)

end Domain
end Inquiry
