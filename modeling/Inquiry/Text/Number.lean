import Inquiry.Text.Blank
import Inquiry.Text.Digit

/-!
Numbers that are written as text, with blanks around them allowed. Digits may be of any script, and
single underscores may stand between them.
-/

namespace Inquiry
namespace Text

def digitsFrom : Bool → List Char → List Nat × List Char
  | _, [] => ([], [])
  | after, c :: cs =>
    match digit? c with
    | some d =>
      let (ds, rest) := digitsFrom true cs
      (d :: ds, rest)
    | none =>
      if c == '_' && after && (cs.head?.bind digit?).isSome then digitsFrom false cs
      else ([], c :: cs)

def digitsValue (ds : List Nat) : Nat :=
  ds.foldl (fun n d => 10 * n + d) 0

def sign : List Char → Bool × List Char
  | '-' :: cs => (true, cs)
  | '+' :: cs => (false, cs)
  | cs        => (false, cs)

def int? (s : String) : Option Int :=
  let (minus, cs) := sign (trim s).toList
  match digitsFrom false cs with
  | ([], _) => none
  | (ds, []) => some (if minus then -(digitsValue ds : Int) else digitsValue ds)
  | _ => none

-- A decimal number: its digits without the point, and the power of ten that they count.
structure Decimal where
  minus    : Bool
  digits   : Nat
  exponent : Int

def exponentPart? : List Char → Option Int
  | []      => some 0
  | c :: cs =>
    if c == 'e' || c == 'E' then
      let (minus, cs) := sign cs
      match digitsFrom false cs with
      | ([], _)  => none
      | (ds, []) => some (if minus then -(digitsValue ds : Int) else digitsValue ds)
      | _        => none
    else none

def decimal? (s : String) : Option Decimal := do
  let (minus, cs) := sign (trim s).toList
  let (whole, cs) := digitsFrom false cs
  let (fraction, cs) := match cs with
    | '.' :: cs => digitsFrom false cs
    | cs        => ([], cs)
  if whole.isEmpty && fraction.isEmpty then none
  let e ← exponentPart? cs
  return ⟨minus, digitsValue (whole ++ fraction), e - fraction.length⟩

def Decimal.toFloat (d : Decimal) : Float :=
  let x := Float.ofScientific d.digits (decide (d.exponent < 0)) d.exponent.natAbs
  if d.minus then -x else x

def float? (s : String) : Option Float :=
  Decimal.toFloat <$> decimal? s

end Text
end Inquiry
