import Inquiry.Kind.Making

/-!
What a request is about, in words: its subjects, the dimensions that they are told apart by, the
conditions under which they count, and what they are divided by.
-/

namespace Inquiry
namespace Explanation

structure Condition where
  var   : Term
  rels  : List Term
  const : Term

structure Dimension where
  var : Term

structure Subject where
  var  : Term
  rels : List Term

structure Denominator where
  var : Term

def begins (word : String) (s : String) : Bool :=
  word.toList.isPrefixOf s.toList

def domainName (t : Term) : Except Failure String := do
  (← t.domain).name

def ownersText (rels : List Term) : Except Failure String := do
  return String.join (← rels.mapM fun r => return " van een " ++ (← domainName r))

def variableText (var : Term) (rels : List Term) : Except Failure String := do
  let owners ← ownersText rels
  return (← var.name) ++ " van een " ++ (← domainName var) ++ owners

def domainPlural (var : Term) : Except Failure (Option String) := do
  match (← var.domain).head? with
  | some h => return h.altname
  | none   => .error .absent

def sameName (t u : Term) : Except Failure Bool :=
  return (← t.name) == (← u.name)

namespace Condition

def text (c : Condition) : Except Failure String :=
  return (← variableText c.var c.rels) ++ " = " ++ (← c.const.name)

def alike (c d : Condition) : Except Failure Bool := do
  if !(← sameName c.var d.var) then return false
  if c.rels != d.rels then return false
  sameName c.const d.const

end Condition

namespace Dimension

def text (d : Dimension) : Except Failure String :=
  return "per " ++ (← d.var.name)

def alike (d e : Dimension) : Except Failure Bool :=
  sameName d.var e.var

end Dimension

namespace Subject

def text? (s : Subject) : Except Failure (Option String) := do
  if begins "een" (← s.var.name) then domainPlural s.var
  else some <$> variableText s.var s.rels

def text (s : Subject) : Except Failure String := do
  match ← s.text? with
  | some t => return t
  | none   => .error .mistyped

def alike (s t : Subject) : Except Failure Bool := do
  if !(← sameName s.var t.var) then return false
  return s.rels == t.rels

end Subject

namespace Denominator

def text (d : Denominator) : Except Failure String := do
  if begins "een" (← d.var.name) then domainName d.var
  else return (← d.var.name) ++ " van een " ++ (← domainName d.var)

def alike (d e : Denominator) : Except Failure Bool :=
  sameName d.var e.var

end Denominator

def addNew (text : α → Except Failure β) (alike : α → α → Except Failure Bool) [BEq β]
    (xs : List α) (x : α) :
    Except Failure (List α) := do
  let t ← text x
  let there ← xs.anyM fun y => do
    if (← text y) == t then alike y x else return false
  return if there then xs else xs ++ [x]

def distinct (text : α → Except Failure β) (alike : α → α → Except Failure Bool) [BEq β]
    (xs : List α) : Except Failure (List α) :=
  xs.foldlM (addNew text alike) []

end Explanation
end Inquiry
