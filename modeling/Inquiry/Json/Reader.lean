import Inquiry.Failure
import Inquiry.Json.Basic

/-!
Reading JSON text. Each reader takes the characters that are left and gives back the rest.
-/

namespace Inquiry
namespace Json

def isBlank (c : Char) : Bool :=
  c = ' ' || c = '\t' || c = '\n' || c = '\r'

def skipBlanks (cs : List Char) : List Char :=
  cs.dropWhile isBlank

def hexValue? (c : Char) : Option Nat :=
  if c.isDigit then some (c.toNat - '0'.toNat)
  else if 'a' ≤ c && c ≤ 'f' then some (c.toNat - 'a'.toNat + 10)
  else if 'A' ≤ c && c ≤ 'F' then some (c.toNat - 'A'.toNat + 10)
  else none

def unit? : List Char → Option (Nat × List Char)
  | a :: b :: c :: d :: rest => do
    let high := (← hexValue? a) * 16 + (← hexValue? b)
    return (high * 256 + (← hexValue? c) * 16 + (← hexValue? d), rest)
  | _ => none

def escapedUnit? (cs : List Char) : Option (Char × List Char) := do
  let (hi, rest) ← unit? cs
  if 0xD800 ≤ hi && hi < 0xDC00 then
    match rest with
    | '\\' :: 'u' :: rest' =>
      let (lo, rest') ← unit? rest'
      if 0xDC00 ≤ lo && lo < 0xE000 then
        return (Char.ofNat (0x10000 + (hi - 0xD800) * 1024 + (lo - 0xDC00)), rest')
      else return (Char.ofNat hi, rest)
    | _ => return (Char.ofNat hi, rest)
  else return (Char.ofNat hi, rest)

def string? : Nat → List Char → List Char → Option (String × List Char)
  | 0, _, _ => none
  | _, _, [] => none
  | _ + 1, acc, '"' :: cs => some (String.ofList acc.reverse, cs)
  | n + 1, acc, '\\' :: e :: cs =>
    match e with
    | '"'  => string? n ('"' :: acc) cs
    | '\\' => string? n ('\\' :: acc) cs
    | '/'  => string? n ('/' :: acc) cs
    | 'b'  => string? n (Char.ofNat 8 :: acc) cs
    | 'f'  => string? n (Char.ofNat 12 :: acc) cs
    | 'n'  => string? n ('\n' :: acc) cs
    | 'r'  => string? n ('\r' :: acc) cs
    | 't'  => string? n ('\t' :: acc) cs
    | 'u'  => do
      let (c, rest) ← escapedUnit? cs
      string? n (c :: acc) rest
    | _    => none
  | n + 1, acc, c :: cs => if c.toNat < 32 || c = '\\' then none else string? n (c :: acc) cs

def digits (cs : List Char) : List Char × List Char :=
  (cs.takeWhile Char.isDigit, cs.dropWhile Char.isDigit)

def natOfDigits (ds : List Char) : Nat :=
  ds.foldl (fun n c => n * 10 + (c.toNat - '0'.toNat)) 0

def whole? (cs : List Char) : Option (List Char × List Char) :=
  match cs with
  | '0' :: rest => some (['0'], rest)
  | _ =>
    let (ds, rest) := digits cs
    if ds.isEmpty then none else some (ds, rest)

def fraction (cs : List Char) : List Char × List Char :=
  match cs with
  | '.' :: rest =>
    let (ds, rest') := digits rest
    if ds.isEmpty then ([], cs) else ('.' :: ds, rest')
  | _ => ([], cs)

def exponent (cs : List Char) : List Char × List Char :=
  match cs with
  | e :: rest =>
    if e = 'e' || e = 'E' then
      let (sign, rest) := match rest with
        | '+' :: r => (['+'], r)
        | '-' :: r => (['-'], r)
        | r        => ([], r)
      let (ds, rest) := digits rest
      if ds.isEmpty then ([], cs) else (e :: sign ++ ds, rest)
    else ([], cs)
  | [] => ([], cs)

def number? (cs : List Char) : Option (Json × List Char) := do
  let (negative, body) := match cs with
    | '-' :: rest => (true, rest)
    | _           => (false, cs)
  let (ds, rest) ← whole? body
  let (frac, rest) := fraction rest
  let (exp, rest) := exponent rest
  let n : Int := natOfDigits ds
  if frac.isEmpty && exp.isEmpty then return (int (if negative then -n else n), rest)
  else
    let sign := if negative then ['-'] else []
    return (decimal (String.ofList (sign ++ ds ++ frac ++ exp)), rest)

def word? (cs : List Char) : Option (Json × List Char) :=
  let words : List (String × Json) :=
    [("null", null), ("true", bool true), ("false", bool false), ("NaN", decimal "NaN"),
     ("Infinity", decimal "Infinity"), ("-Infinity", decimal "-Infinity")]
  (words.find? fun w => w.1.toList.isPrefixOf cs).map fun w => (w.2, cs.drop w.1.length)

mutual

def value? : Nat → List Char → Option (Json × List Char)
  | 0, _ => none
  | _ + 1, '"' :: cs => (string? (cs.length + 1) [] cs).map fun (s, rest) => (str s, rest)
  | n + 1, '[' :: cs =>
    match skipBlanks cs with
    | ']' :: rest => some (arr [], rest)
    | cs          => (items? n [] cs).map fun (xs, rest) => (arr xs, rest)
  | n + 1, '\x7b' :: cs =>
    match skipBlanks cs with
    | '\x7d' :: rest => some (obj [], rest)
    | cs             => (fields? n [] cs).map fun (fs, rest) => (obj fs, rest)
  | _ + 1, cs => (number? cs).or (word? cs)

def items? : Nat → List Json → List Char → Option (List Json × List Char)
  | 0, _, _ => none
  | n + 1, acc, cs => do
    let (x, rest) ← value? n (skipBlanks cs)
    match skipBlanks rest with
    | ',' :: rest => items? n (x :: acc) rest
    | ']' :: rest => some ((x :: acc).reverse, rest)
    | _           => none

def fields? : Nat → List (String × Json) → List Char → Option (List (String × Json) × List Char)
  | 0, _, _ => none
  | n + 1, acc, cs =>
    match skipBlanks cs with
    | '"' :: cs => do
      let (k, rest) ← string? (cs.length + 1) [] cs
      match skipBlanks rest with
      | ':' :: rest =>
        let (v, rest) ← value? n (skipBlanks rest)
        match skipBlanks rest with
        | ',' :: rest    => fields? n (setField k v acc) rest
        | '\x7d' :: rest => some (setField k v acc, rest)
        | _              => none
      | _ => none
    | _ => none

end

def parse (s : String) : Except Failure Json :=
  let cs := s.toList
  match value? (cs.length + 1) (skipBlanks cs) with
  | some (v, rest) => if (skipBlanks rest).isEmpty then .ok v else .error .malformedJson
  | none           => .error .malformedJson

end Json
end Inquiry
