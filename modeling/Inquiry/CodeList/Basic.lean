import Inquiry.Failure
import Inquiry.Markup.Basic
import Inquiry.Text.Digit

/-!
Code lists: codes with their labels. The codes of a list with levels have seven digits, and the
zeros at the end of a code tell its level, from 0 for the widest groups to 3. The table of such a
list has a line for each way from a group down to a code.
-/

namespace Inquiry
namespace CodeList

open Markup

-- An entry of a code list; a label or code may be empty.
structure Entry where
  label : Option String
  code  : Option String
  deriving Inhabited

def hasShape (n zeros : Nat) (code : List Char) : Bool :=
  (code.take n).length == n && (code.take n).all Text.isDigit
    && (code.drop n).take zeros == List.replicate zeros '0'

def level (code : String) : Nat :=
  let cs := code.toList
  if hasShape 1 6 cs then 0
  else if hasShape 3 4 cs then 1
  else if hasShape 5 2 cs then 2
  else 3

def above (code : α → String) (l : Nat) (xs : List α) : List α :=
  xs.filter fun x => level (code x) < l

def filled (codes : List α) : Except Failure (List α) :=
  match codes.getLast? with
  | some c => .ok (codes ++ List.replicate (4 - codes.length) c)
  | none   => .error .outOfRange

def codeText (code : Option String) : String :=
  code.getD "None"

def line (codes : List (Option String)) : Except Failure String := do
  let texts ← codes.mapM fun
    | some c => .ok c
    | none   => .error .mistyped
  return String.intercalate "\t" texts ++ "\n"

-- The codes on the way to the present one, the level of the present one, and what was written.
structure Walk where
  codes : List (Option String) := []
  level : Option Nat := none
  text  : String := ""

def Walk.step (w : Walk) (code : Option String) : Except Failure Walk := do
  let l := CodeList.level (codeText code)
  if w.level.any (l ≤ ·) then
    let full ← filled w.codes
    let text ← line full
    return { codes := above codeText l full ++ [code], level := some l, text := w.text ++ text }
  else return { w with codes := w.codes ++ [code], level := some l }

def table (codes : List (Option String)) : Except Failure String := do
  return (← codes.foldlM Walk.step {}).text

def childText (tag : String) (e : Element) : Except Failure (Option String) :=
  match e.find? tag with
  | some c => .ok c.text?
  | none   => .error .absent

def entries (labelIsCode : Bool) (root : Element) : Except Failure (List Entry) :=
  (root.findAll "Code").mapM fun e => do
    let label ← childText "Label" e
    let code ← if labelIsCode then pure label else childText "Waarde" e
    return { label, code }

def labelTable (labels : List (Option String)) : Except Failure String := do
  let lines ← labels.mapM fun
    | some l => .ok ("    [''] : '" ++ l ++ "',\n")
    | none   => .error .mistyped
  return String.join lines

def labels (root : Element) : Except Failure (List (Option String)) :=
  (root.findAll "Code").mapM (childText "Label")

-- A constant that an entry of a code list stands for.
structure Coded where
  entry    : Entry
  codomain : Term

def withLevels (codomains : List Term) (es : List Entry) : Except Failure (List Coded) :=
  es.mapM fun e =>
    match codomains[level (codeText e.code)]? with
    | some c => .ok ⟨e, c⟩
    | none   => .error .outOfRange

end CodeList
end Inquiry
