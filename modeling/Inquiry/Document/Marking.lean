import Inquiry.Assoc
import Inquiry.Document.Basic
import Inquiry.Json.Basic

/-!
Marking the tokens of a document: with the names of kinds, with keywords, and with the constants
that a group of words stands for. What is found in a document is given; the tables say what it
means.
-/

namespace Inquiry
namespace Document

def separator : String := "__SEP__"

-- A document together with the spans whose tokens are to become one.
abbrev Marked := Document × List Span

/-! Names -/

-- What a lemma stands for.
structure NameEntry where
  lemma_ : String
  name   : Meaning
  sort   : String
  deriving Inhabited

def splitName (s : String) : Meaning :=
  match s.splitOn separator with
  | [n] => .text n
  | ns  => .list (ns.map Meaning.text)

def nameTable (rows : List (String × String × String)) : Assoc String NameEntry :=
  rows.foldl (fun t (lemma_, name, sort) => Assoc.put lemma_ ⟨lemma_, splitName name, sort⟩ t) []

def keywordOfSort : String → Option String
  | "NumericalVariable"   => some Keyword.numeric
  | "CategoricalVariable" => some Keyword.category
  | "ObjectTypeRelation"  => some Keyword.relation
  | "ObjectType"          => some Keyword.objectType
  | "Constant"            => some Keyword.constant
  | _                     => none

def entry (table : Assoc String α) (key : String) : Except Failure α :=
  match Assoc.get? table key with
  | some e => .ok e
  | none   => .error .noKey

def nameToken (table : Assoc String NameEntry) (text lemma_ : String) (t : Token) :
    Except Failure Token := do
  let (name, sort) ← match Assoc.get? table (Text.lower text) with
    | none   => do
      let e ← entry table lemma_
      pure (e.name, e.sort)
    | some e => do
      let e' ← entry table text
      pure (if e.lemma_ == Text.lower t.text then e.name else e'.name, e'.sort)
  return { t with name, sort := some sort, keyword := (keywordOfSort sort).getD t.keyword }

def markNames (table : Assoc String NameEntry) (found : List Span) (d : Document) :
    Except Failure Marked := do
  let d ← found.foldlM (fun d s => do
    let d' ← d.changeSpan s (nameToken table (d.spanText s) (d.spanLemma s))
    return { d' with entities := d.apart s ++ [s] }) d
  return (d, Span.longest found)

/-! Keywords -/

def keywordTable (rows : List (String × String)) : Assoc String String :=
  rows.foldl (fun t (word, keyword) => Assoc.put (Text.lower word) keyword t) []

def markKeywords (table : Assoc String String) (found : List Span) (d : Document) :
    Except Failure Marked := do
  let d ← found.foldlM (fun d s => do
    let d' ← d.changeSpan s fun t => do return { t with keyword := ← entry table t.text }
    return { d' with entities := s :: d.apart s }) d
  return (d, found)

/-! Groups -/

-- A constant that is meant when one of some words stands in a relation to each of some others.
structure Group where
  heads    : List String
  others   : List String
  constant : String
  deriving Inhabited

def groupTable (rows : List (String × String)) : List Group :=
  let split := rows.map fun (words, constant) => (constant, words.splitOn separator)
  let constants := (split.map (·.1)).eraseDups.mergeSort (· ≤ ·)
  constants.map fun c =>
    let own := (split.filter (·.1 == c)).map (·.2)
    { heads := (own.filterMap List.head?).eraseDups.mergeSort (· ≤ ·)
      others := (own.head?.getD []).drop 1
      constant := c }

def groupRelations : List String := ["<<", ">>", "$++", "$--"]

def groupKeys (gs : List Group) : List (String × String × Group) :=
  (Sequence.numbered gs).flatMap fun (i, g) =>
    (Sequence.numbered groupRelations).map fun (j, r) =>
      ("p" ++ toString i ++ "_" ++ toString j, r, g)

def lemmaIn (words : List String) : Json :=
  .obj [("LEMMA", .obj [("IN", .arr (words.map Json.str))])]

def groupPattern (key relation : String) (g : Group) : Json :=
  let first := Json.obj
    [("RIGHT_ID", .str key), ("RIGHT_ATTRS", lemmaIn g.heads), ("DESCRIPTION", .str g.constant)]
  let other (w : String) := Json.obj
    [("LEFT_ID", .str key), ("REL_OP", .str relation), ("RIGHT_ID", .str (key ++ "_subject")),
     ("RIGHT_ATTRS", lemmaIn [w])]
  .arr [.arr (first :: g.others.map other)]

def groupPatterns (gs : List Group) : List (String × Json) :=
  (groupKeys gs).map fun (key, relation, g) => (key, groupPattern key relation g)

def markGroups (gs : List Group) (found : List (String × List Int)) (d : Document) :
    Except Failure Marked := do
  let d ← found.foldlM (fun (d : Document) (key, places) => do
    let (_, g) ← entry (groupKeys gs) key
    let i ← Sequence.get places 0
    let some k := Sequence.place? d.tokens.length i | throw .outOfRange
    let mark (t : Token) : Token := { t with name := .text g.constant, keyword := Keyword.constant }
    return { d with tokens := d.tokens.modify k mark }) d
  return (d, [])

/-! The order of the components -/

-- Each component with the one that comes before it.
def components : List (String × Option String) :=
  [("lookup_component", none), ("tuples_component", some "lookup_component"),
   ("keywords_component", some "tuples_component")]

end Document
end Inquiry
