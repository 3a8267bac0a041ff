import Inquiry.Sequence

/-!
Keywords, which tell what sort of thing a word of a request is, and patterns of keywords. Words that
are not known hold the keyword `unknown`; patterns can pass over them.
-/

namespace Inquiry
namespace Keyword

def unknown    := "<unk>"
def objectType := "<ot>"
def relation   := "<otr>"
def constant   := "<const>"
def numeric    := "<numvar>"
def category   := "<catvar>"
def number     := "<number>"
def all        := "<all>"
def per        := "<per>"
def prep       := "<prep>"
def withWord   := "<with>"
def question   := "<whowhat>"
def most       := "<most>"
def least      := "<least>"
def greatest   := "<greatest>"
def smallest   := "<smallest>"

def eligible : List String := [objectType, constant, relation, numeric]

section

-- Words are read by their places, which are those below `l`.
variable (read : Int → Except Failure String) (l : Nat)

def forwardFrom (n : Int) : Except Failure Int :=
  if n < l then do
    if (← read n) == unknown then forwardFrom (n + 1) else return n
  else .ok n
termination_by (l - n).toNat

def backFrom (n : Int) : Except Failure Int :=
  if 0 ≤ n then do
    if (← read n) == unknown then backFrom (n - 1) else return n
  else .ok n
termination_by (n + 1).toNat

def contextBy (k : Int) : Except Failure (List Int) := do
  let f₁ ← forwardFrom read l (k + 1)
  let f₂ ← forwardFrom read l (f₁ + 1)
  let b₁ ← backFrom read (k - 1)
  let b₂ ← backFrom read (b₁ - 1)
  return [b₂, b₁, f₁, f₂]

def contextOffset (context : List (Option Int)) (c i past : Nat) : Int :=
  (i : Int) + (context.length / 2 : Nat) - c - past

def holds (p : String) : Option Int → Except Failure Bool
  | none   => .ok false
  | some n => if n < l ∧ 0 ≤ n then do return p == (← read n) else .ok false

def fits (context : List (Option Int)) (c : Nat) : List String → Nat → Nat → Except Failure Bool
  | [], _, _ => .ok true
  | p :: ps, i, past =>
    if i == c then fits context c ps (i + 1) 1
    else do
      let n ← Sequence.get context (contextOffset context c i past)
      if ← holds read l p n then fits context c ps (i + 1) past else return false

def clueIndexBy (pattern : List String) (clue : Int) (context : List (Option Int)) :
    Except Failure (Option Int) := do
  let some c := pattern.findIdx? (· == "*") | throw .badValue
  if ← fits read l context c pattern 0 0 then
    let past : Int := if clue > c then 1 else 0
    Sequence.get context (clue + (context.length / 2 : Nat) - c - past)
  else return some (-1)

end

def lookForward (ks : List String) (k : Int) : Except Failure Int :=
  forwardFrom (Sequence.get ks) ks.length (k + 1)

def lookBack (ks : List String) (k : Int) : Except Failure Int :=
  backFrom (Sequence.get ks) (k - 1)

def context (ks : List String) (k : Int) : Except Failure (List Int) :=
  contextBy (Sequence.get ks) ks.length k

def clueIndex (pattern : List String) (clue : Int) (context : List (Option Int))
    (ks : List String) : Except Failure (Option Int) :=
  clueIndexBy (Sequence.get ks) ks.length pattern clue context

def walk (skip : Bool) (want : Nat) :
    List String → List String → Nat → Nat → Option Nat → Option Nat
  | _, [], _, _, found => found
  | [], _ :: _, _, _, _ => none
  | k :: ks, p :: ps, j, pos, found =>
    if p != k && !(skip && k == unknown) then none
    else
      let found := if j == want then some pos else found
      if skip && k == unknown then walk skip want ks (p :: ps) j (pos + 1) found
      else walk skip want ks ps (j + 1) (pos + 1) found

def matchAt (pattern : List String) (want index : Int) (ks : List String) (skip : Bool) :
    Option Nat :=
  if 0 ≤ index ∧ 0 ≤ want ∧ want < pattern.length then
    match ks.drop index.toNat with
    | []      => none
    | k :: rest =>
      if k == unknown then none else walk skip want.toNat (k :: rest) pattern 0 index.toNat none
  else none

def find? (pattern : List String) (want index : Int) (ks : List String) (skip : Bool) :
    Option Nat :=
  if 0 ≤ index then
    (List.range' index.toNat (ks.length - index.toNat)).findSome? fun (i : Nat) =>
      matchAt pattern want (i : Nat) ks skip
  else none

-- A pattern with the entry that is looked for, and whether unknown words are passed over.
structure Cue where
  pattern : List String
  want    : Nat
  skip    : Bool

def Cue.find? (c : Cue) (ks : List String) : Option Nat :=
  Keyword.find? c.pattern c.want 0 ks c.skip

def places (cs : List Cue) (ks : List String) : List Nat :=
  cs.filterMap (·.find? ks)

def direction : List String → String
  | []      => ""
  | k :: ks =>
    if k == most || k == greatest then "desc"
    else if k == least || k == smallest then "asc"
    else direction ks

def nearest (ks : List String) (t : Int) (d : Nat) : Except Failure (Option Int) := do
  if t + d < ks.length ∨ 0 ≤ t - d then
    if t + d < ks.length then
      if eligible.contains (← Sequence.get ks (t + d)) then return some (t + d)
    if 0 ≤ t - d then
      if eligible.contains (← Sequence.get ks (t - d)) then return some (t - d)
    nearest ks t (d + 1)
  else return none
termination_by (max (ks.length - t) (t + 1) - d).toNat
decreasing_by all_goals omega

def around (ks : List String) (t : Int) : Except Failure (Option Int) :=
  nearest ks t 1

def settled : List String := [objectType, constant, " <otr>", numeric]

def targetIndex (ks : List String) (guess : Int) : Except Failure (Option Int) := do
  let t := max (min guess (ks.length - 1)) 0
  if settled.contains (← Sequence.get ks t) then return some t else around ks t

end Keyword
end Inquiry
