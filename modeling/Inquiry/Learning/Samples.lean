import Inquiry.Text.Number
import Inquiry.Words.Reading

/-!
Samples of requests to learn from. A file of samples has a chapter for each class of requests, which
starts with a blank line and the number of the class; before each request stands the word that it is
about.
-/

namespace Inquiry
namespace Learning

-- The keywords of requests, their labels, and how often each label occurs.
structure Samples where
  texts   : List String := []
  labels  : List Int := []
  counts  : List Nat
  longest : Nat := 0
  deriving Inhabited

namespace Samples

def add (s : Samples) (keywords : List String) (label : Option Int) : Except Failure Samples := do
  let some label := label | throw .unassigned
  let some k := Sequence.place? s.counts.length label | throw .outOfRange
  return { texts := s.texts ++ [" ".intercalate keywords], labels := s.labels ++ [label]
           counts := s.counts.modify k (· + 1), longest := max s.longest keywords.length }

def summary (s : Samples) : String :=
  "\n\ntotal number of queries: " ++ toString s.texts.length
    ++ "\nnumber of queries per class: [" ++ ", ".intercalate (s.counts.map toString)
    ++ "]\nmaximum sentence length: " ++ toString s.longest ++ "\n"

end Samples

-- How a request is read.
abbrev Reader := String → SessionM Reading

-- Where a file of samples stands: before a number of a class, and within the class of a label.
structure Chapter where
  isNew   : Bool := false
  label   : Option Int := none
  samples : Samples

def Chapter.next (read : Reader) (c : Chapter) (line : String) : SessionM Chapter := do
  let line := Text.trimEnd line
  if line.isEmpty then return { c with isNew := true }
  else if c.isNew then
    let some n := Text.int? line | throw .badValue
    return { c with isNew := false, label := some n }
  else if (Text.words line).length == 1 then return c
  else
    let r ← read line
    return { c with samples := ← ofExcept (c.samples.add r.keywords c.label) }

def byClass (read : Reader) (text : String) : SessionM Samples := do
  let start : Chapter := { samples := { counts := List.replicate 16 0 } }
  let c ← (Text.anyLines text).foldlM (Chapter.next read) start
  return c.samples

-- The word that requests are about.
abbrev Subject := Option String

def nextTarget (read : Reader) (x : Subject × Samples) (line : String) :
    SessionM (Subject × Samples) := do
  let line := Text.trimEnd line
  if line.length ≤ 2 then return x
  else if (Text.words line).length == 1 then return (some line, x.2)
  else
    let r ← read line
    let some word := x.1 | throw .unassigned
    let some (k : Nat) := r.tokens.findIdx? (· == word) | throw .badValue
    return (x.1, ← ofExcept (x.2.add r.keywords (some k)))

def byTarget (read : Reader) (text : String) : SessionM Samples := do
  let start : Samples := { counts := List.replicate 21 0 }
  let (_, s) ← (Text.anyLines text).foldlM (nextTarget read) (none, start)
  return s

def checkTarget (read : Reader) (x : Subject × String) (line : String) :
    SessionM (Subject × String) := do
  if line.length ≤ 2 then return x
  else match Text.words line with
    | [w] => return (some w, x.2)
    | _   =>
      let r ← read line
      let some word := x.1 | throw .unassigned
      if r.tokens.contains word then return x
      else
        let tokens := Text.bracketed (r.tokens.map Text.quoted)
        return (x.1, x.2 ++ tokens ++ "\n" ++ word ++ "\n")

def check (read : Reader) (text : String) : SessionM String := do
  let (_, printed) ← (Text.anyLines text).foldlM (checkTarget read) (none, "")
  return printed

end Learning
end Inquiry
