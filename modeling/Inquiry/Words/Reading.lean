import Inquiry.Session.Recall
import Inquiry.Words.Keywording
import Inquiry.Words.Lexicon
import Inquiry.Words.Order

/-!
Reading a request: its fragments, the synonyms by which unknown fragments are understood, what they
stand for, and their keywords.
-/

namespace Inquiry

-- A request with the synonym of each token, where one was needed.
structure Reading where
  tokens   : List String
  synonyms : List (Option String)
  meanings : List Meaning
  keywords : List String
  deriving Inhabited

namespace Words

def stopWords : List String :=
  ["met", "bij", "op", "in", "van", "uit", "aantal", "aantallen", "hoeveel", "vaak", "totale",
   "totaal", "gemiddelde", "gemiddeld", "ieder", "iedere", "elk", "elke", "al", "alle", "welk",
   "welke", "wat", "wie", "waar", "hoe", "per", "naar", "voor", "over", "grootst", "grootste",
   "hoogst", "hoogste", "kleinst", "kleinste", "laagst", "laagste", "meest", "meeste", "minst",
   "minste", "de", "het", "een", "is", "zijn", "was", "waren", "heeft", "hebben", "had", "hadden",
   "worden", "wordt", "werd", "werden", "er", "en", "of", "aan", "dat", "die", "daar", "dan",
   "als", "zij", "hij", "haar", "hem", "hun", "hen", "ons", "onze", "door"]

-- What a reader knows: entries of fragments, the words of the domain, and the search for a synonym.
structure Knowledge where
  lexicon : Lexicon
  vocab   : List String
  similar : String → Except Failure String

def kindFor (name sort : Meaning) : SessionM Term :=
  match name, sort with
  | .term (.nothing), _    => return .nothing
  | .term t, _             => SessionM.asKind t
  | .text n, .text s       => SessionM.kindOfSort n s
  | .text n, .term .nothing => SessionM.kindNamed n
  | .text "", _ | .list [], _ => return .nothing
  | _, _                   => throw .mistyped

def entryKind : Meaning → SessionM Term
  | .named n s            => SessionM.kindOfSort n s
  | .list (m :: m' :: _)  => kindFor m m'
  | .list _               => throw .outOfRange
  | .text s               =>
    match s.toList with
    | c :: d :: _ => SessionM.kindOfSort c.toString d.toString
    | _           => throw .outOfRange
  | .term _               => throw .mistyped

def understand (k : Knowledge) (w : String) (m : Meaning) : SessionM (Meaning × Option String) := do
  if m.isNothing && !stopWords.contains w && !k.vocab.contains w then
    let s ← ofExcept (k.similar w)
    let m ← match k.lexicon.text? s with
      | some e => Meaning.term <$> entryKind e
      | none   => pure m
    return (m, if k.vocab.contains s then some s else none)
  else return (m, none)

def recognise (k : Knowledge) :
    List String → List Meaning → SessionM (List Meaning × List (Option String))
  | [], ms => return (ms, [])
  | _ :: _, [] => throw .outOfRange
  | w :: ws, m :: ms => do
    let (m, s) ← understand k w m
    let (ms, ss) ← recognise k ws ms
    return (m :: ms, s :: ss)

def triples (u v w : String) : List (List String) :=
  [[u, v, w], [u, w, v], [v, u, w], [v, w, u], [w, u, v], [w, v, u]]

def spoken (ws : List String) (ss : List (Option String)) (i : Nat) : Except Failure String := do
  match ← Sequence.get ss i with
  | some s => return s
  | none   => Sequence.get ws i

def groupsAt (ws : List String) (ss : List (Option String)) (n m i : Nat) :
    Except Failure (List (List String)) := do
  let u ← spoken ws ss i
  let pairs ← (List.range' (i + 1) (n - (i + 1))).mapM fun j => do
    let v ← spoken ws ss j
    let threes ← (List.range' (j + 1) (m - (j + 1))).mapM fun k => do
      return triples u v (← spoken ws ss k)
    return [[u, v], [v, u]] ++ threes.flatten
  return pairs.flatten

def joinGroups (l : Lexicon) (ws : List String) (ss : List (Option String)) (ms : List Meaning) :
    Except Failure (List Meaning) := do
  let groups := l.groups
  (List.range ws.length).foldlM (fun ms i => do
    match ((← groupsAt ws ss ws.length ms.length i).filterMap groups.group?).getLast? with
    | some m => if i < ms.length then return ms.set i m else throw .outOfRange
    | none   => return ms) ms

def read (k : Knowledge) (l : Lexicon) (s : String) (numbers : Bool) : SessionM Reading := do
  let (ws, ms) ← ofExcept (cut l s numbers)
  let (ms, ss) ← recognise k ws ms
  let ms ← ofExcept (joinGroups k.lexicon ws ss ms)
  let ks ← ofExcept (Keyword.ofTokens ws ms)
  let (ws, ms, ks) ← ofExcept (insertOrder ws ms ks)
  return ⟨ws, ss, ms, ks⟩

def kindGiven : Meaning → SessionM Meaning
  | .text n => Meaning.term <$> SessionM.kindNamed n
  | m       => Meaning.term <$> kindFor m .nothing

def readTokens (k : Knowledge) (tokens : List String) (names : List Meaning)
    (keywords : List String) : SessionM Reading := do
  let ms ← names.mapM kindGiven
  let (ms, ss) ← recognise k tokens ms
  return ⟨tokens, ss, ms, ← ofExcept (Keyword.addSynonyms ms ss keywords)⟩

end Words
end Inquiry
