/-!
The codes of crimes with their labels, from the widest group to the single crime.
-/

namespace Inquiry
namespace Model

def propertyCrimes : List (String × String) :=
  [("1000000", "Vermogensmisdrijven"),
   ("1010000", "Diefstal/verduistering en inbraak (WvSr art. 310-312, 321-325)"),
   ("1010100", "Diefstal en inbraak met geweld (WvSr art. 312)"),
   ("1010101", "Diefstal van fiets"), ("1010102", "Diefstal van bromfiets/snorfiets"),
   ("1010103", "Diefstal van motor/scooter"), ("1010104", "Diefstal van personenauto"),
   ("1010105", "Diefstal van vervoermiddel (overig)"), ("1010106", "Diefstal van vaartuig"),
   ("1010107", "Diefstal uit/vanaf personenauto"),
   ("1010108", "Diefstal uit/vanaf vervoermiddel (overig)"),
   ("1010109", "Diefstal uit/vanaf vaartuig"), ("1010111", "Straatroof"),
   ("1010113", "Diefstal/inbraak uit woning"),
   ("1010114", "Diefstal/inbraak uit box/garage/schuur/tuinhuis"), ("1010115", "Winkeldiefstal"),
   ("1010116", "Diefstal/inbraak uit winkel/bedrijf/kantoor"),
   ("1010117", "Diefstal/inbraak uit hotel/pension"), ("1010118", "Diefstal/inbraak uit school"),
   ("1010119", "Diefstal/inbraak uit sportcomplex"),
   ("1010121", "Diefstal/inbraak uit gebouw (overig)"), ("1010122", "Overval"),
   ("1010123", "Diefstal en inbraak (overig)"),
   ("1010200", "Diefstal en inbraak zonder geweld (WvSr art. 310,311,321-325)"),
   ("1010201", "Diefstal van fiets"), ("1010202", "Diefstal van bromfiets/snorfiets"),
   ("1010203", "Diefstal van motor/scooter"), ("1010204", "Diefstal van personenauto"),
   ("1010205", "Diefstal van vervoermiddel (overig)"), ("1010206", "Diefstal van vaartuig"),
   ("1010207", "Diefstal uit/vanaf personenauto"),
   ("1010208", "Diefstal uit/vanaf vervoermiddel (overig)"),
   ("1010209", "Diefstal uit/vanaf vaartuig"), ("1010210", "Diefstal van dier"),
   ("1010212", "Zakkenrollerij"), ("1010213", "Diefstal/inbraak uit woning"),
   ("1010214", "Diefstal/inbraak uit box/garage/schuur/tuinhuis"), ("1010215", "Winkeldiefstal"),
   ("1010216", "Diefstal/inbraak uit winkel/bedrijf/kantoor"),
   ("1010217", "Diefstal/inbraak uit hotel/pension"), ("1010218", "Diefstal/inbraak uit school"),
   ("1010219", "Diefstal/inbraak uit sportcomplex"),
   ("1010220", "Diefstal/inbraak uit defensiecomplex"),
   ("1010221", "Diefstal/inbraak uit gebouw (overig)"),
   ("1010223", "Diefstal en inbraak (overig)"), ("1020000", "Bedrog (WvSr art 326-338)"),
   ("1020100", "Oplichting (WvSr art. 326)"), ("1020200", "Flessentrekkerij (WvSr art. 326a)"),
   ("1020300", "Bedrog (overig) \u00a0(WvSr art. 326b-338)"),
   ("1030000", "Valsheidsmisdrijven (WvSr art. 208-214, 216-223, 225-234)"),
   ("1030100", "Muntmisdrijf (WvSr art. 208-214)"),
   ("1030200", "Valsheid in zegels en merken (WvSr art. 216-223)"),
   ("1030300", "Valsheid in geschriften (WvSr art. 225-234)"),
   ("1040000", "Heling (WvSr art. 416-417bis)"),
   ("1050000", "Afpersing en afdreiging (WvSr art. 317-318)"),
   ("1060000", "Bankbreuk (WvSr art. 340-343)"),
   ("1070000", "Witwassen (WvSr art. 420bis-420quater)"),
   ("1080000", "Vermogensmisdrijf (overig) (WvSr art. 314-315, 344-348)"),
   ("2000000", "Vernielingen en misdrijven tegen openbare orde en gezag"),
   ("2010000", "Vernieling en beschadiging (WvSr art. 350-352)")]

def publicCrimes : List (String × String) :=
  [("2010100", "Vernieling aan auto"), ("2010200", "Vernieling aan openbaar gebouw"),
   ("2010300", "Vernieling aan middel openbaar vervoer"), ("2010400", "Dierenmishandeling"),
   ("2010500", "Vernieling en beschadiging (overig)"),
   ("2020000", "Openbare orde misdrijf (WvSr art. 131-136, 138-151c)"),
   ("2020100", "Openlijke geweldpleging (WvSr art. 141)"),
   ("2020101", "Openlijke geweldpleging tegen persoon (WvSr art. 141)"),
   ("2020102", "Openlijke geweldpleging tegen goed (WvSr art. 141)"),
   ("2020200", "Huisvredebreuk (WvSr art. 138)"), ("2020300", "Lokaalvredebreuk (WvSr art. 139)"),
   ("2020400", "Computervredebreuk (WvSr art. 138ab, 138b)"),
   ("2020500", "Discriminatie (WvSr art. 137c-137g)"),
   ("2020600", "Openbare orde misdrijf (overig) (WvSr art. 131-137, 138a, 139a-140, 142-151c)"),
   ("2030000", "Brandstichting/ontploffing (WvSr art. 157-158)"),
   ("2040000", "Openbaar gezag misdrijf \u00a0(WvSr art. 177-182, 184-206)"),
   ("2040100", "Niet opvolgen van ambtelijk bevel (WvSr art. 184)"),
   ("2040200", "Wederspannigheid (WvSr art. 180-182)"),
   ("2040300", "Valse aangifte (WvSr art. 188)"), ("2040400", "Mensensmokkel (WvSr art. 197a)"),
   ("2040500", "Verblijf van ongewenste vreemdeling (WvSr art. 197)"),
   ("2040600", "Openbaar gezag misdrijf (overig) (WvSr art. 177-179, 185-187, 189-196, 197b-206)"),
   ("3000000", "Gewelds- en seksuele misdrijven"), ("3010000", "Mishandeling (WvSr art. 300-306)"),
   ("3020000", "Bedreiging en stalking (WvSr art. 284a-285b)"),
   ("3020100", "Bedreiging (WvSr art. 284a-285a)"), ("3020200", "Stalking (WvSr art. 285b)"),
   ("3030000", "Seksueel misdrijf (WvSr art. 239-250)"),
   ("3030100", "Aanranding \u00a0(WvSr art. 246)"), ("3030200", "Verkrachting (WvSr art. 242)"),
   ("3030300", "Schennis der eerbaarheid (WvSr art. 239)"),
   ("3030400", "Ontucht met minderjarige (WvSr art. 248a-248e)"),
   ("3030500", "Pornografie (WvSr art. 240-240b)"),
   ("3030600", "Ontucht met misbruik van gezag (WvSr art. 249)"),
   ("3030700", "Seksueel misdrijf (overig) (WvSr art. 243-245, 247-248, 250)"),
   ("3040000", "Levensmisdrijf (WvSr art. 287-296)"),
   ("3050000", "Vrijheidsbeneming/gijzeling (WvSr art. 282-282a)"),
   ("3060000", "Mensenhandel (WvSr art. 273f)"),
   ("3070000", "Geweldsmisdrijf (overig) \u00a0(WvSr art. 274-281, 307-308)"),
   ("4000000", "Misdrijven WvSr (overig)"), ("5000000", "Verkeersmisdrijven"),
   ("5010000", "Verlaten plaats ongeval (WVW art. 7)"),
   ("5020000", "Rijden onder invloed (WVW art. 8)"),
   ("5030000", "Rijden tijdens ontzegging/onbevoegd besturen (WVW art. 9)"),
   ("5040000", "Rijden tijdens rijverbod (WVW art. 162)"),
   ("5050000", "Voeren vals kenteken (WVW art. 41)"), ("5060000", "Joyriding (WVW art. 11)"),
   ("5070000", "Weigeren blaastest/bloedonderzoek e0d0 (WVW art. 163)"),
   ("5080000", "Verkeersmisdrijf (overig) (WVW art. 6, 51, 61, 74, 114, 138)"),
   ("6000000", "Drugsmisdrijven"), ("6010000", "Harddrugs (Opiumwet art. 2)"),
   ("6020000", "Softdrugs (Opiumwet art. 3)"), ("6030000", "Drugsmisdrijven (overig)"),
   ("7000000", "(Vuur)wapenmisdrijven"), ("9000000", "Misdrijven overige wetten"),
   ("9010000", "Militaire misdrijven (WvMSr art. 96-166)"), ("9020000", "Misdrijven (overig)"),
   ("9090000", "Aard misdrijf onbekend")]

def crimeCodes : List (String × String) :=
  propertyCrimes ++ publicCrimes

end Model
end Inquiry
