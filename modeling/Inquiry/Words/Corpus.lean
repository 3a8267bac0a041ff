import Inquiry.Text.Number
import Inquiry.Words.Similarity

/-!
Reading word vectors: a line with the number of words and their dimension, and then a line for each
word with its vector.
-/

namespace Inquiry
namespace WordVectors

def dimensionOf (line : String) : Except Failure Nat :=
  match (Text.words line).mapM Text.int? with
  | some [_, d] => if 0 ≤ d then .ok d.toNat else .error .badValue
  | _           => .error .badValue

def ofLine (dimension : Nat) (line : String) : Except Failure (String × Vector) :=
  match Text.pieces ' ' (Text.trimEnd line) with
  | [] => .error .badValue
  | word :: numbers =>
    match numbers.mapM Text.float? with
    | none     => .error .badValue
    | some [x] => .ok (word, List.replicate dimension x)
    | some v   => if v.length == dimension then .ok (word, v) else .error .badValue

def ofCorpus (text : String) (wanted : Nat) (vocab : List String) : Except Failure WordVectors := do
  let ls := Text.lines text
  let d ← dimensionOf (ls.head?.getD "")
  let entries ← ((ls.drop 1).take wanted).mapM (ofLine d)
  let known := vocab.filterMap fun w => entries.find? fun e => e.1 == w
  return { words := entries.map (·.1), vectors := entries.map (·.2)
           known := known.map (·.1), knownVectors := known.map (·.2) }

end WordVectors
end Inquiry
