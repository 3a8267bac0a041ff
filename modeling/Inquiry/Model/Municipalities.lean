/-!
The municipalities in alphabetical order.
-/

namespace Inquiry
namespace Model

def municipalitiesAToG : List String :=
  ["Aa en Hunze", "Aalburg", "Aalsmeer", "Aalten", "Achtkarspelen", "Alblasserdam",
   "Albrandswaard", "Alkmaar", "Almelo", "Almere", "Alphen aan den Rijn", "Alphen-Chaam",
   "Ameland", "Amersfoort", "Amstelveen", "Amsterdam", "Apeldoorn", "Appingedam", "Arnhem",
   "Assen", "Asten", "Baarle-Nassau", "Baarn", "Barendrecht", "Barneveld", "Bedum", "Beek",
   "Beemster", "Beesel", "Bellingwedde", "Berg en Dal", "Bergeijk", "Bergen (L.)", "Bergen (NH.)",
   "Bergen op Zoom", "Berkelland", "Bernheze", "Best", "Beuningen", "Beverwijk", "het Bildt",
   "De Bilt", "Binnenmaas", "Bladel", "Blaricum", "Bloemendaal", "Bodegraven-Reeuwijk", "Boekel",
   "Ten Boer", "Borger-Odoorn", "Borne", "Borsele", "Boxmeer", "Boxtel", "Breda", "Brielle",
   "Bronckhorst", "Brummen", "Brunssum", "Bunnik", "Bunschoten", "Buren", "Capelle aan den IJssel",
   "Castricum", "Coevorden", "Cranendonck", "Cromstrijen", "Cuijk", "Culemborg", "Dalfsen",
   "Dantumadiel", "Delft", "Delfzijl", "Deurne", "Deventer", "Diemen", "Dinkelland", "Doesburg",
   "Doetinchem", "Dongen", "Dongeradeel", "Dordrecht", "Drechterland", "Drimmelen", "Dronten",
   "Druten", "Duiven", "Echt-Susteren", "Edam-Volendam", "Ede", "Eemnes", "Eemsmond", "Eersel",
   "Eijsden-Margraten", "Eindhoven", "Elburg", "Emmen", "Enkhuizen", "Enschede", "Epe", "Ermelo",
   "Etten-Leur", "Ferwerderadiel", "Franekeradeel", "De Fryske Marren", "Geertruidenberg",
   "Geldermalsen", "Geldrop-Mierlo", "Gemert-Bakel", "Gennep", "Giessenlanden", "Gilze en Rijen",
   "Goeree-Overflakkee", "Goes", "Goirle", "Gooise Meren", "Gorinchem", "Gouda", "Grave",
   "'s-Gravenhage", "Groningen", "Grootegast", "Gulpen-Wittem", "Haaksbergen", "Haaren", "Haarlem",
   "Haarlemmerliede en Spaarnwoude", "Haarlemmermeer", "Halderberge", "Hardenberg"]

def municipalitiesGToO : List String :=
  ["Harderwijk", "Hardinxveld-Giessendam", "Haren", "Harlingen", "Hattem", "Heemskerk",
   "Heemstede", "Heerde", "Heerenveen", "Heerhugowaard", "Heerlen", "Heeze-Leende", "Heiloo",
   "Den Helder", "Hellendoorn", "Hellevoetsluis", "Helmond", "Hendrik-Ido-Ambacht", "Hengelo",
   "'s-Hertogenbosch", "Heumen", "Heusden", "Hillegom", "Hilvarenbeek", "Hilversum",
   "Hof van Twente", "Hollands Kroon", "Hoogeveen", "Hoogezand-Sappemeer", "Hoorn",
   "Horst aan de Maas", "Houten", "Huizen", "Hulst", "IJsselstein", "Kaag en Braassem", "Kampen",
   "Kapelle", "Katwijk", "Kerkrade", "Koggenland", "Kollumerland en Nieuwkruisland", "Korendijk",
   "Krimpen aan den IJssel", "Krimpenerwaard", "Laarbeek", "Landerd", "Landgraaf", "Landsmeer",
   "Langedijk", "Lansingerland", "Laren", "Leek", "Leerdam", "Leeuwarden", "Leeuwarderadeel",
   "Leiden", "Leiderdorp", "Leidschendam-Voorburg", "Lelystad", "Leudal", "Leusden", "Lingewaal",
   "Lingewaard", "Lisse", "Littenseradiel", "Lochem", "Loon op Zand", "Lopik", "Loppersum",
   "Losser", "Maasdriel", "Maasgouw", "Maassluis", "Maastricht", "De Marne", "Marum", "Medemblik",
   "Meerssen", "Menameradiel", "Menterwolde", "Meppel", "Middelburg", "Midden-Delfland",
   "Midden-Drenthe", "Mill en Sint Hubert", "Moerdijk", "Molenwaard", "Montferland", "Montfoort",
   "Mook en Middelaar", "Neder-Betuwe", "Nederweert", "Neerijnen", "Nieuwegein", "Nieuwkoop",
   "Nijkerk", "Nijmegen", "Nissewaard", "Noord-Beveland", "Noordenveld", "Noordoostpolder",
   "Noordwijk", "Noordwijkerhout", "Nuenen", "Nunspeet", "Nuth", "Oegstgeest", "Oirschot",
   "Oisterwijk", "Oldambt", "Oldebroek", "Oldenzaal", "Olst-Wijhe", "Ommen", "Onderbanken",
   "Oost Gelre", "Oosterhout", "Ooststellingwerf", "Oostzaan", "Opmeer", "Opsterland", "Oss",
   "Oud-Beijerland", "Oude IJsselstreek", "Ouder-Amstel", "Oudewater", "Overbetuwe", "Papendrecht",
   "Peel en Maas"]

def municipalitiesOToZ : List String :=
  ["Pekela", "Pijnacker-Nootdorp", "Purmerend", "Putten", "Raalte", "Reimerswaal", "Renkum",
   "Renswoude", "Reusel-De Mierden", "Rheden", "Rhenen", "Ridderkerk", "Rijnwaarden",
   "Rijssen-Holten", "Rijswijk", "Roerdalen", "Roermond", "De Ronde Venen", "Roosendaal",
   "Rotterdam", "Rozendaal", "Rucphen", "Schagen", "Scherpenzeel", "Schiedam", "Schiermonnikoog",
   "Schijndel", "Schinnen", "Schouwen-Duiveland", "Simpelveld", "Sint Anthonis",
   "Sint-Michielsgestel", "Sint-Oedenrode", "Sittard-Geleen", "Sliedrecht", "Slochteren", "Sluis",
   "Smallingerland", "Soest", "Someren", "Son en Breugel", "Stadskanaal", "Staphorst",
   "Stede Broec", "Steenbergen", "Steenwijkerland", "Stein", "Stichtse Vecht", "Strijen",
   "S�dwest-Frysl�n", "Terneuzen", "Terschelling", "Texel", "Teylingen", "Tholen", "Tiel",
   "Tilburg", "Tubbergen", "Twenterand", "Tynaarlo", "Tytsjerksteradiel", "Uden", "Uitgeest",
   "Uithoorn", "Urk", "Utrecht", "Utrechtse Heuvelrug", "Vaals", "Valkenburg aan de Geul",
   "Valkenswaard", "Veendam", "Veenendaal", "Veere", "Veghel", "Veldhoven", "Velsen", "Venlo",
   "Venray", "Vianen", "Vlaardingen", "Vlagtwedde", "Vlieland", "Vlissingen", "Voerendaal",
   "Voorschoten", "Voorst", "Vught", "Waalre", "Waalwijk", "Waddinxveen", "Wageningen",
   "Wassenaar", "Waterland", "Weert", "Weesp", "Werkendam", "West Maas en Waal", "Westerveld",
   "Westervoort", "Westland", "Weststellingwerf", "Westvoorne", "Wierden", "Wijchen", "Wijdemeren",
   "Wijk bij Duurstede", "Winsum", "Winterswijk", "Woensdrecht", "Woerden", "De Wolden",
   "Wormerland", "Woudenberg", "Woudrichem", "Zaanstad", "Zaltbommel", "Zandvoort", "Zederik",
   "Zeewolde", "Zeist", "Zevenaar", "Zoetermeer", "Zoeterwoude", "Zuidhorn", "Zuidplas", "Zundert",
   "Zutphen", "Zwartewaterland", "Zwijndrecht", "Zwolle"]

def municipalities : List String :=
  municipalitiesAToG ++ municipalitiesGToO ++ municipalitiesOToZ

end Model
end Inquiry
