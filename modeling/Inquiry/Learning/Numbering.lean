import Inquiry.Sequence
import Inquiry.Text.Blank
import Inquiry.Text.Case

/-!
Texts as rows of numbers: words are numbered from one, the most frequent first, and every row has
the same length.
-/

namespace Inquiry
namespace Learning

def isMark (c : Char) : Bool :=
  let n := c.toNat
  let ranges := [(33, 47), (58, 64), (91, 96), (123, 126)]
  c != '\'' && ranges.any fun (first, last) => first ≤ n && n ≤ last
    || c == '\t' || c == '\n'

def wordsOf (s : String) : List String :=
  (Text.pieces ' ' ((Text.lower s).map fun c => if isMark c then ' ' else c)).filter (!·.isEmpty)

-- Words by their number; the first one has number one.
abbrev Numbering := List String

namespace Numbering

def ofTexts (texts : List String) : Numbering :=
  let words := texts.flatMap wordsOf
  words.eraseDups.mergeSort fun v w => words.count w ≤ words.count v

def encode (n : Numbering) (s : String) : List Nat :=
  (wordsOf s).filterMap fun w => (n.findIdx? (· == w)).map (· + 1)

end Numbering

def pad (n : Nat) (xs : List Nat) : List Nat :=
  List.replicate (n - xs.length) 0 ++ xs.drop (xs.length - n)

def oneHot (n : Nat) (label : Int) : Except Failure (List Nat) :=
  match Sequence.place? n label with
  | some k => .ok ((List.replicate n 0).set k 1)
  | none   => .error .outOfRange

end Learning
end Inquiry
