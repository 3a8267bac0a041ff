import Inquiry.Kind.Making
import Inquiry.Text.Basic

/-!
What the words of a request stand for: a term or nothing, and sometimes a list, such as a variable
with the direction in which it is sorted. A lexicon can also give the name and sort of a kind.
-/

namespace Inquiry

inductive Meaning where
  | term (t : Term)
  | text (s : String)
  | list (ms : List Meaning)
  | named (name sort : String)
  deriving Inhabited

namespace Meaning

def nothing : Meaning := term .nothing

def alike : Meaning → Meaning → Bool
  | term t, term u    => t == u
  | text s, text s'   => s == s'
  | list ms, list ms' => alikeList ms ms'
  | named n k, named n' k' => n == n' && k == k'
  | _, _              => false
where
  alikeList : List Meaning → List Meaning → Bool
    | [], []           => true
    | m :: ms, n :: ns => m.alike n && alikeList ms ns
    | _, _             => false

instance : BEq Meaning := ⟨alike⟩

def asTerm : Meaning → Term
  | term t => t
  | _      => .nothing

def isNothing : Meaning → Bool
  | term .nothing => true
  | _             => false

def printed : Meaning → String
  | term t  => t.printed
  | text s  => Text.quoted s
  | list ms => "[" ++ String.intercalate ", " (printedList ms) ++ "]"
  | named n k => "(" ++ Text.quoted n ++ ", " ++ Text.quoted k ++ ")"
where
  printedList : List Meaning → List String
    | []      => []
    | m :: ms => m.printed :: printedList ms

def first : Meaning → Except Failure Meaning
  | list ms => Sequence.get ms 0
  | _       => .error .mistyped

end Meaning

namespace Term

def source (t : Term) : Except Failure Term :=
  (·.getD .nothing) <$> t.domain?

def goal (t : Term) : Except Failure Term :=
  (·.getD .nothing) <$> t.codomain?

def isEqualTo (t u : Term) : Except Failure Bool :=
  match t with
  | .nothing | .number _ | .flag _ => .error .absent
  | _                              => .ok (t.equals u)

def printedList (ts : List Term) : String :=
  "[" ++ String.intercalate ", " (ts.map printed) ++ "]"

end Term

namespace Meaning

def goal (m : Meaning) : Except Failure Term := m.asTerm.goal

def isEqualTo (m : Meaning) (t : Term) : Except Failure Bool := m.asTerm.isEqualTo t

end Meaning

-- A request: its words, what they stand for, and the keyword that each of them is read as.
structure Request where
  tokens   : List String := []
  meanings : List Meaning
  keywords : List String
  deriving Inhabited

namespace Request

def meaning (r : Request) (i : Int) : Except Failure Meaning :=
  Sequence.get r.meanings i

def keyword (r : Request) (i : Int) : Except Failure String :=
  Sequence.get r.keywords i

def token (r : Request) (i : Int) : Except Failure String :=
  Sequence.get r.tokens i

def places (r : Request) (ks : List String) : List Nat :=
  (Sequence.numbered r.keywords).filterMap fun (i, k) => if ks.contains k then some i else none

def mentions (r : Request) (ks : List String) : Except Failure (List Meaning) :=
  (r.places ks).mapM fun (i : Nat) => r.meaning i

end Request
end Inquiry
