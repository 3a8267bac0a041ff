import Inquiry.Request.Keyword
import Inquiry.Request.Path

/-!
What a request is about: its pivot, from which everything that is mentioned can be reached, and its
target, the object type that is asked for.
-/

namespace Inquiry
namespace Request

open Keyword

def candidate (preferred : TermTable Term) : Meaning → Except Failure Term
  | .list ms =>
    match ms with
    | m :: _ => if m.asTerm.isVariable then m.asTerm.source else .ok .nothing
    | []     => .ok .nothing
  | .text _ | .named .. => .ok .nothing
  | .term t =>
    if t.isObjectType then .ok t
    else if t.hasClass .objectTypeRelation || t.isVariable then t.source
    else if t.isConstant then do
      match preferred.get? (← t.goal) with
      | some v => v.source
      | none   => return .nothing
    else .ok .nothing

def widen (pivot : Term) (m : Meaning) : SessionM Term := do
  if m.isNothing then return pivot
  let c ← ofExcept (candidate (← get).preferred m)
  match ← SessionM.origin pivot c with
  | .nothing => return pivot
  | o        => return o

def orderedCues : List Cue :=
  [⟨[greatest, objectType], 1, true⟩, ⟨[smallest, objectType], 1, true⟩,
   ⟨[greatest, constant, objectType], 2, true⟩, ⟨[smallest, constant, objectType], 2, true⟩,
   ⟨[objectType, greatest], 0, true⟩, ⟨[objectType, smallest], 0, true⟩,
   ⟨["<geatest>", constant], 0, true⟩, ⟨[smallest, constant], 0, true⟩,
   ⟨[constant, greatest], 0, true⟩, ⟨[constant, smallest], 0, true⟩,
   ⟨[objectType, constant, greatest], 0, true⟩, ⟨[objectType, constant, smallest], 0, true⟩,
   ⟨[objectType, prep, constant, greatest], 0, true⟩,
   ⟨[objectType, prep, constant, smallest], 0, true⟩]

def orderedPivot (s : Session) (pivot : Term) (m : Meaning) : Except Failure (Option Term) := do
  let t := m.asTerm
  if t.isObjectType then
    if pivot == t then
      if let some v := s.ordering.get? pivot then return some (← v.source)
  if t.isConstant then
    if let some o := s.preferred.get? (← t.goal) then
      if pivot == o then
        if let some v := s.ordering.get? o then return some (← v.source)
  return none

def firstAt (r : Request) (f : Meaning → Except Failure (Option α)) :
    List Nat → Except Failure (Option α)
  | []      => .ok none
  | i :: is => do
    match ← f (← r.meaning i) with
    | some a => return some a
    | none   => firstAt r f is

def pivot (r : Request) : SessionM Term := do
  let p ← r.meanings.foldlM widen .nothing
  let s ← get
  let o ← ofExcept (r.firstAt (orderedPivot s p) (Keyword.places orderedCues r.keywords))
  return o.getD p

def standsFor (s : Session) (m : Meaning) : Except Failure (Option Meaning) := do
  if m.asTerm.isConstant then
    match s.override.get? (← m.goal) with
    | some o => return if o.isConstant then none else some (.term o)
    | none   => return none
  else return some m

def nextTargetCues : List Cue :=
  [⟨[question, objectType], 1, false⟩, ⟨[objectType, withWord], 0, false⟩,
   ⟨[constant, withWord], 0, false⟩, ⟨[objectType, question], 0, false⟩,
   ⟨[question, objectType], 1, true⟩, ⟨[question, constant, objectType], 2, false⟩,
   ⟨[question, constant, constant], 2, false⟩, ⟨[question, constant], 1, false⟩,
   ⟨[constant, objectType], 1, false⟩, ⟨[constant, constant], 1, false⟩,
   ⟨[objectType], 0, false⟩, ⟨[constant], 0, false⟩]

def nextTarget (r : Request) : SessionM Meaning := do
  let s ← get
  let m ← ofExcept (r.firstAt (standsFor s) (Keyword.places nextTargetCues r.keywords))
  return m.getD .nothing

def rankedCues : List Cue :=
  [⟨[question, objectType], 1, true⟩, ⟨[question, constant], 1, true⟩,
   ⟨[most, objectType], 1, true⟩, ⟨[greatest, objectType], 1, true⟩,
   ⟨[objectType, most], 0, true⟩, ⟨[objectType, greatest], 0, true⟩,
   ⟨[least, objectType], 1, true⟩, ⟨[smallest, objectType], 1, true⟩,
   ⟨[objectType, least], 0, true⟩, ⟨[objectType, smallest], 0, true⟩,
   ⟨[most, constant], 1, true⟩, ⟨[greatest, constant], 1, true⟩,
   ⟨[constant, most], 0, true⟩, ⟨[constant, greatest], 0, true⟩,
   ⟨[least, constant], 1, true⟩, ⟨[constant, least], 0, true⟩,
   ⟨[smallest, constant], 1, true⟩, ⟨[constant, smallest], 0, true⟩,
   ⟨[objectType], 0, true⟩, ⟨[constant], 0, true⟩]

def ranked (r : Request) : SessionM Meaning := do
  let s ← get
  let m ← ofExcept (r.firstAt (standsFor s) (Keyword.places rankedCues r.keywords))
  return m.getD .nothing

def orderCues : List Cue :=
  [⟨[greatest, objectType], 1, false⟩, ⟨[smallest, objectType], 1, false⟩,
   ⟨[greatest, constant], 1, false⟩, ⟨[smallest, constant], 1, false⟩,
   ⟨[greatest, relation], 1, false⟩, ⟨[smallest, relation], 1, false⟩,
   ⟨[objectType, greatest], 0, true⟩, ⟨[objectType, smallest], 0, true⟩,
   ⟨[constant, greatest], 0, true⟩, ⟨[constant, smallest], 0, true⟩,
   ⟨[relation, greatest], 0, true⟩, ⟨[relation, smallest], 0, true⟩]

def isOrdered (r : Request) : Bool :=
  !(Keyword.places orderCues r.keywords).isEmpty

def asked (pronouns : TermTable String) (t : Term) (word : Except Failure String) :
    Except Failure Term := do
  let d ← t.source
  match pronouns.get? d with
  | some w => return if w == (← word) then d else t
  | none =>
    let c ← t.goal
    match pronouns.get? c with
    | some w => return if w == (← word) then c else t
    | none   => return t

def asks (r : Request) (i : Int) : Except Failure Bool := do
  return (← r.keyword i) == question

def steered (r : Request) (s : Session) (k : Int) (t : Term) : Except Failure Term := do
  let before ← if k > 0 then r.asks (k - 1) else pure false
  if before then asked s.pronouns t (r.token (k - 1))
  else
    let after ← if k + 1 < r.keywords.length then r.asks (k + 1) else pure false
    if after then asked s.pronouns t (r.token (k + 1)) else return t

def targetAt (r : Request) (s : Session) (ordered : Bool) (k : Int) : Except Failure Meaning := do
  let m ← r.meaning k
  let m ← if m.asTerm.isRelation then Meaning.term <$> r.steered s k m.asTerm else pure m
  let m ← if m.asTerm.isRelation then
      match s.orientation.get? m.asTerm with
      | some o => pure (.term o)
      | none   => Meaning.term <$> m.asTerm.source
    else pure m
  let m ← if m.asTerm.isConstant then do
      match s.override.get? (← m.goal) with
      | some o => pure (Meaning.term o)
      | none   => pure m
    else pure m
  let m ← if m.asTerm.isObjectType && ordered then
      match s.ordering.get? m.asTerm with
      | some v => Meaning.term <$> v.source
      | none   => pure m
    else pure m
  if (← r.keyword k) == numeric then
    if m.asTerm.isVariable then return .term (← m.asTerm.source)
    else return .term (← (← m.first).asTerm.source)
  else return m

def convert (r : Request) (s : Session) (k : Option Int) (ordered : Bool) :
    Except Failure Meaning :=
  match k with
  | none   => .ok .nothing
  | some k => r.targetAt s ordered k

def target (r : Request) (guess : Int) (pivot : Term) : SessionM Term := do
  let k ← ofExcept (targetIndex r.keywords guess)
  let m ← ofExcept (r.convert (← get) k r.isOrdered)
  return if m.asTerm.isObjectType then m.asTerm else pivot

end Request
end Inquiry
