import Inquiry.Request.Keyword
import Inquiry.Request.Meaning

/-!
The keywords of the words of a request: by what a word stands for, or else by the word itself.
-/

namespace Inquiry
namespace Keyword

def spellings : List (String × List String) :=
  [(withWord, ["met"]),
   (prep, ["bij", "op", "in", "van", "uit"]),
   ("<num>", ["aantallen", "aantal"]),
   ("<howmany>", ["hoeveel", "vaak"]),
   ("<tot>", ["totale", "totaal"]),
   ("<avg>", ["gemiddelde", "gemiddeld"]),
   (all, ["iedere", "elke", "elk", "ieder", "alle", "al"]),
   (question, ["welk", "wat", "welke", "wie", "waar"]),
   (per, ["per", "naar", "voor", "over"]),
   (greatest, ["grootste", "grootst", "hoogst", "hoogste", "maximum", "maximaal", "maximale"]),
   (smallest, ["kleinste", "kleinst", "laagst", "laagste", "minimum", "minimaal", "minimale"]),
   (most, ["meest", "meeste"]),
   (least, ["minst", "minste"])]

def vocabulary : List String :=
  ["<empty>", unknown, objectType, relation, "<numvarsum>", "<numvaravg>", numeric, category,
   constant, "<num>", "<howmany>", "<sum>", "<tot>", "<avg>", all, per, prep, question, most,
   least, withWord, greatest, smallest, number]

def ofWord (w : String) : String :=
  match spellings.find? fun e => e.2.contains w with
  | some (k, _) => k
  | none        => if vocabulary.contains w then w else unknown

def ofVariable (t : Term) : Except Failure String := do
  return if (← (← t.goal).name) == "getal" then numeric else category

def ofMeaning : Meaning → Except Failure (Option String)
  | .list []       => .ok none
  | .list (m :: _) => if m.asTerm.isVariable then some <$> ofVariable m.asTerm else .ok none
  | .term t        =>
    match t.cls? with
    | some .objectTypeRelation => .ok (some relation)
    | some .objectType         => .ok (some objectType)
    | some .constant           => .ok (some constant)
    | some .variable           => some <$> ofVariable t
    | _                        => do return if (← t.name) == "getal" then some number else none
  | .text _ | .named .. => .error .absent

def ofToken (w : String) (m : Meaning) : Except Failure (Option String) :=
  if m.isNothing then .ok (some (ofWord w)) else ofMeaning m

def ofTokens (ws : List String) (ms : List Meaning) : Except Failure (List String) := do
  let ks ← ws.mapM fun w => do ofToken w (← Sequence.get ms (ws.findIdx (· == w)))
  return ks.filterMap id

def isFilled : Meaning → Bool
  | .list []         => false
  | .text s          => !s.isEmpty
  | .term .nothing   => false
  | .term (.number n) => n != 0
  | .term (.flag b)  => b
  | _                => true

def replace (ks : List String) (i : Nat) (k : String) : Except Failure (List String) :=
  if i < ks.length then .ok (ks.set i k) else .error .outOfRange

def addSynonym (ks : List String) (i : Nat) (m : Meaning) (s : Option String) :
    Except Failure (List String) := do
  if isFilled m && s.any (!·.isEmpty) then
    match ← ofMeaning m with
    | some k => if m.asTerm.isVariable && k == category then return ks ++ [k] else replace ks i k
    | none   => return ks
  else return ks

def addSynonyms (ms : List Meaning) (ss : List (Option String)) (ks : List String) :
    Except Failure (List String) :=
  (Sequence.numbered (ms.zip ss)).foldlM (fun ks (i, m, s) => addSynonym ks i m s) ks

end Keyword
end Inquiry
