import Inquiry.Words.Order
import Inquiry.Text.Case

/-!
Documents: tokens with what is known of them, and the spans of tokens that were recognised as one.
-/

namespace Inquiry

-- A run of tokens: the place of its first one, and the place after its last one.
structure Span where
  start : Int
  stop  : Int
  deriving DecidableEq, Repr, Inhabited

namespace Span

def length (s : Span) : Int :=
  s.stop - s.start

def overlaps (s t : Span) : Bool :=
  max s.start t.start < min s.stop t.stop

def precedes (s t : Span) : Bool :=
  t.length < s.length || (s.length == t.length && s.start ≤ t.start)

def disjoint (ss : List Span) : List Span :=
  ss.foldl (fun kept s => if kept.any (overlaps s) then kept else kept ++ [s]) []

def longest (ss : List Span) : List Span :=
  (disjoint (ss.mergeSort precedes)).mergeSort fun s t => s.start ≤ t.start

end Span

-- A token of a document. Its name is a text, or a list of texts where a direction of sorting is
-- part of it.
structure Token where
  text     : String
  lemma_   : String
  name     : Meaning := .nothing
  sort     : Option String := none
  keyword  : String := Keyword.unknown
  isMark   : Bool := false
  isNumber : Bool := false
  deriving Inhabited

structure Document where
  tokens   : List Token
  entities : List Span := []
  deriving Inhabited

namespace Document

def inside (d : Document) (s : Span) : List Token :=
  Sequence.slice d.tokens s.start s.stop

def spanText (d : Document) (s : Span) : String :=
  " ".intercalate ((d.inside s).map (·.text))

def spanLemma (d : Document) (s : Span) : String :=
  " ".intercalate ((d.inside s).map (·.lemma_))

def changeSpan (d : Document) (s : Span) (f : Token → Except Failure Token) :
    Except Failure Document := do
  let n := d.tokens.length
  let tokens ← (Sequence.numbered d.tokens).mapM fun (i, t) =>
    if Sequence.bound n s.start ≤ i && i < Sequence.bound n s.stop then f t else .ok t
  return { d with tokens }

def apart (d : Document) (s : Span) : List Span :=
  d.entities.filter fun e => !e.overlaps s

def columns (d : Document) (numbers : Bool) : Except Failure Words.Columns := do
  let ts := d.tokens.filter (!·.isMark)
  if ts.isEmpty then throw .noKey
  let name (t : Token) : Meaning :=
    if numbers && t.isNumber then .text (Text.lower t.text) else t.name
  let keyword (t : Token) : String := if numbers && t.isNumber then Keyword.constant else t.keyword
  Words.withOrder (ts.map fun t => Text.lower t.text) (ts.map name) (ts.map keyword)

end Document
end Inquiry
