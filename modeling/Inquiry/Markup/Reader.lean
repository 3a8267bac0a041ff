import Inquiry.Failure
import Inquiry.Markup.Basic

/-!
Reading marked-up text: the text is first cut into openings, closings and runs of characters, and
these are then nested. Names with a namespace are not read.
-/

namespace Inquiry
namespace Markup

inductive Event where
  | opening (tag : String) (attributes : List (String × String))
  | closing (tag : String)
  | chars (s : List Char)

def isBlank (c : Char) : Bool :=
  c = ' ' || c = '\t' || c = '\n' || c = '\r'

def isNameStart (c : Char) : Bool :=
  c.isAlpha || c = '_' || 127 < c.toNat

def isNameChar (c : Char) : Bool :=
  isNameStart c || c.isDigit || c = '-' || c = '.'

def isLegal (c : Char) : Bool :=
  32 ≤ c.toNat && c.toNat != 0xFFFE && c.toNat != 0xFFFF || isBlank c

def unifyLines : List Char → List Char
  | '\r' :: '\n' :: cs => '\n' :: unifyLines cs
  | '\r' :: cs         => '\n' :: unifyLines cs
  | c :: cs            => c :: unifyLines cs
  | []                 => []

def name? (cs : List Char) : Option (String × List Char) :=
  match cs with
  | c :: _ =>
    if isNameStart c then some (String.ofList (cs.takeWhile isNameChar), cs.dropWhile isNameChar)
    else none
  | [] => none

def until? (stop : List Char) : List Char → Option (List Char × List Char)
  | [] => if stop.isEmpty then some ([], []) else none
  | c :: cs =>
    if stop.isPrefixOf (c :: cs) then some ([], (c :: cs).drop stop.length)
    else (until? stop cs).map fun (before, after) => (c :: before, after)

def digitValue (base : Nat) (c : Char) : Option Nat :=
  let v :=
    if c.isDigit then c.toNat - '0'.toNat
    else if 'a' ≤ c && c ≤ 'f' then c.toNat - 'a'.toNat + 10
    else if 'A' ≤ c && c ≤ 'F' then c.toNat - 'A'.toNat + 10
    else base
  if v < base then some v else none

def number? (base : Nat) (cs : List Char) : Option Nat :=
  if cs.isEmpty then none
  else cs.foldlM (fun n c => (digitValue base c).map (n * base + ·)) 0

def entity? : List Char → Option Char
  | ['a', 'm', 'p']           => some '&'
  | ['l', 't']                => some '<'
  | ['g', 't']                => some '>'
  | ['q', 'u', 'o', 't']      => some '"'
  | ['a', 'p', 'o', 's']      => some '\''
  | '#' :: 'x' :: ds          => (number? 16 ds).bind legal?
  | '#' :: ds                 => (number? 10 ds).bind legal?
  | _                         => none
where
  legal? (n : Nat) : Option Char :=
    if n.isValidChar && isLegal (Char.ofNat n) then some (Char.ofNat n) else none

def value? (quote : Char) : Nat → List Char → Option (List Char × List Char)
  | 0, _ => none
  | _, [] => none
  | n + 1, c :: cs =>
    if c = quote then some ([], cs)
    else if c = '<' then none
    else if c = '&' then do
      let (inside, rest) ← until? [';'] cs
      let d ← entity? inside
      let (v, rest) ← value? quote n rest
      return (d :: v, rest)
    else do
      let (v, rest) ← value? quote n cs
      return ((if isBlank c then ' ' else c) :: v, rest)

def attributes? : Nat → List Char → Option (List (String × String) × List Char)
  | 0, _ => none
  | n + 1, cs =>
    let rest := cs.dropWhile isBlank
    match rest with
    | '>' :: _ | '/' :: _ => some ([], rest)
    | _ => do
      if cs.length == rest.length then none
      let (name, rest) ← name? rest
      match rest.dropWhile isBlank with
      | '=' :: rest =>
        match rest.dropWhile isBlank with
        | q :: rest =>
          if q = '"' || q = '\'' then do
            let (v, rest) ← value? q (rest.length + 1) rest
            let (others, rest) ← attributes? n rest
            if others.any (·.1 == name) then none
            return ((name, String.ofList v) :: others, rest)
          else none
        | [] => none
      | _ => none

def hasDoubleDash : List Char → Bool
  | '-' :: '-' :: _ => true
  | _ :: cs         => hasDoubleDash cs
  | []              => false

def events : Nat → List Char → Option (List Event)
  | 0, _ => none
  | _, [] => some []
  | n + 1, '<' :: '!' :: '-' :: '-' :: cs => do
    let (inside, rest) ← until? ['-', '-'] cs
    match rest with
    | '>' :: rest => if inside.all isLegal then events n rest else none
    | _           => none
  | n + 1, '<' :: '?' :: cs => do
    let (_, rest) ← until? ['?', '>'] cs
    events n rest
  | n + 1, '<' :: '!' :: '[' :: 'C' :: 'D' :: 'A' :: 'T' :: 'A' :: '[' :: cs => do
    let (inside, rest) ← until? [']', ']', '>'] cs
    return .chars inside :: (← events n rest)
  | n + 1, '<' :: '!' :: 'D' :: 'O' :: 'C' :: 'T' :: 'Y' :: 'P' :: 'E' :: cs => do
    let (_, rest) ← until? ['>'] cs
    events n rest
  | n + 1, '<' :: '/' :: cs => do
    let (tag, rest) ← name? cs
    match rest.dropWhile isBlank with
    | '>' :: rest => return .closing tag :: (← events n rest)
    | _           => none
  | n + 1, '<' :: cs => do
    let (tag, rest) ← name? cs
    let (as, rest) ← attributes? (rest.length + 1) rest
    match rest with
    | '/' :: '>' :: rest => return .opening tag as :: .closing tag :: (← events n rest)
    | '>' :: rest        => return .opening tag as :: (← events n rest)
    | _                  => none
  | n + 1, '&' :: cs => do
    let (inside, rest) ← until? [';'] cs
    return .chars [← entity? inside] :: (← events n rest)
  | n + 1, cs => do
    let run := cs.takeWhile fun c => c != '<' && c != '&'
    if (until? [']', ']', '>'] run).isSome || !run.all isLegal then none
    return .chars run :: (← events n (cs.drop run.length))

-- An element whose end has not been seen: its children are kept last first.
structure Unclosed where
  tag        : String
  attributes : List (String × String)
  text       : String := ""
  children   : List Element := []

namespace Unclosed

def close (u : Unclosed) : Element :=
  .mk u.tag u.attributes u.text u.children.reverse ""

def add (u : Unclosed) (e : Element) : Unclosed :=
  { u with children := e :: u.children }

def write (u : Unclosed) (s : String) : Unclosed :=
  match u.children with
  | []                                   => { u with text := u.text ++ s }
  | .mk tag attrs text inner tail :: es =>
    { u with children := .mk tag attrs text inner (tail ++ s) :: es }

end Unclosed

def nest? : List Unclosed → Option Element → List Event → Option Element
  | [], root, [] => root
  | _ :: _, _, [] => none
  | [], root, .chars s :: es => if s.all isBlank then nest? [] root es else none
  | [], none, .opening tag as :: es => nest? [⟨tag, as, "", []⟩] none es
  | [], _, _ :: _ => none
  | u :: us, root, .chars s :: es => nest? (u.write (String.ofList s) :: us) root es
  | us, root, .opening tag as :: es => nest? (⟨tag, as, "", []⟩ :: us) root es
  | u :: us, root, .closing tag :: es =>
    if u.tag == tag then
      match us with
      | []      => nest? [] (some u.close) es
      | p :: us => nest? (p.add u.close :: us) root es
    else none

namespace Element

def parse (s : String) : Except Failure Element :=
  let cs := unifyLines s.toList
  match (events (cs.length + 1) cs).bind (nest? [] none) with
  | some e => .ok e
  | none   => .error .malformedXml

end Element
end Markup
end Inquiry
