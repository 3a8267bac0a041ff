import Inquiry.Assoc
import Inquiry.Request.Meaning
import Inquiry.Text.Blank
import Inquiry.Text.Case
import Inquiry.Text.Digit

/-!
Lexicons, and cutting a request into fragments by one: at each place the longest run of words that
has an entry is taken, or else a single word.
-/

namespace Inquiry

-- What a lexicon has an entry for: a text, or a group of words that may stand apart.
inductive Phrase where
  | text (s : String)
  | group (ws : List String)
  deriving DecidableEq, Repr, Inhabited

abbrev Lexicon := Assoc Phrase Meaning

namespace Lexicon

def text? (l : Lexicon) (s : String) : Option Meaning :=
  Assoc.get? l (.text s)

def group? (l : Lexicon) (ws : List String) : Option Meaning :=
  Assoc.get? l (.group ws)

def groups (l : Lexicon) : Lexicon :=
  l.filter fun e => e.1 matches .group _

def longest? (l : Lexicon) (ws : List String) : Nat → Option (Nat × Meaning)
  | 0     => none
  | n + 1 =>
    match l.text? (" ".intercalate (ws.take (n + 1))) with
    | some m => some (n, m)
    | none   => longest? l ws n

def cut (l : Lexicon) : List String → List (String × Option Meaning)
  | []      => []
  | w :: ws =>
    match l.longest? (w :: ws) (ws.length + 1) with
    | some (n, m) => (" ".intercalate (w :: ws.take n), some m) :: cut l (ws.drop n)
    | none        => (w, none) :: cut l ws
termination_by ws => ws.length

end Lexicon

namespace Words

def isMark (c : Char) : Bool :=
  "?.!/;:,\n".contains c

def ofRequest (s : String) : List String :=
  Text.pieces ' ' (Text.lower (String.ofList (s.toList.filter fun c => !isMark c)))

def isNumber (s : String) : Bool :=
  !s.isEmpty && s.all Text.isDigit

def cut (l : Lexicon) (s : String) (numbers : Bool) : Except Failure (List String × List Meaning) :=
  let parts := l.cut (ofRequest s)
  if numbers && parts.any fun p => p.2.isNone && isNumber p.1 then .error .undefinedName
  else .ok (parts.map (·.1), parts.map fun p => p.2.getD .nothing)

end Words
end Inquiry
