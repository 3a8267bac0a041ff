import Inquiry.Explanation.Basic

/-!
Reading the explanation of a request off its term, and wording it for each class of requests.
-/

namespace Inquiry
namespace Explanation

def leaves (wanted : Op → Bool) : Term → List Term
  | .app _ op args _ => if wanted op then leavesOfList args else []
  | t                => [t]
where
  leavesOfList : List Term → List Term
    | []      => []
    | t :: ts => leaves wanted t ++ leavesOfList ts

def isQuotient : Term → Bool
  | .kind h .. => h.cls == .operator && h.name == "(/)"
  | _          => false

def isCountedVariable (t : Term) : Bool :=
  t.isVariable && !begins "alle" t.printed

def focused (k : Nat) : Term → Except Failure (List Term)
  | .app _ op args _ =>
    match op with
    | .inclusion   => .ok []
    | .aggregation => ofFirst args
    | .composition => if args.head?.any isQuotient then ofSecond args else ofList args
    | _            => ofList args
  | t => .ok [t]
where
  ofList : List Term → Except Failure (List Term)
    | []      => .ok []
    | t :: ts => return (← focused k t) ++ (← ofList ts)
  ofFirst : List Term → Except Failure (List Term)
    | []     => .error .outOfRange
    | t :: _ => focused k t
  ofPlace : Nat → List Term → Except Failure (List Term)
    | _, []          => .error .outOfRange
    | 0, t :: _      => focused k t
    | n + 1, _ :: ts => ofPlace n ts
  ofSecond : List Term → Except Failure (List Term)
    | _ :: .app _ _ parts _ :: _ => ofPlace k parts
    | _ :: _ :: _                => .error .absent
    | _                          => .error .outOfRange

def relations (t : Term) : Except Failure (List Term) :=
  return (← focused 0 t).filter Term.isRelation

def denominators (t : Term) : Except Failure (List Denominator) := do
  distinct Denominator.text Denominator.alike (((← focused 1 t).filter isCountedVariable).map (⟨·⟩))

def dimensionVariables : Term → Except Failure (List Term)
  | .app _ op args _ =>
    match op with
    | .aggregation => match args with
      | _ :: w :: _ => .ok ((leaves (· != .inclusion) w).filter isCountedVariable)
      | _           => .error .outOfRange
    | .composition => if args.head?.any isQuotient then ofSecond args else ofList args
    | _            => ofList args
  | _ => .ok []
where
  ofList : List Term → Except Failure (List Term)
    | []      => .ok []
    | t :: ts => return (← dimensionVariables t) ++ (← ofList ts)
  ofSecond : List Term → Except Failure (List Term)
    | _ :: .app _ _ (t :: _) _ :: _ => dimensionVariables t
    | _ :: .app _ _ [] _ :: _       => .error .outOfRange
    | _ :: _ :: _                   => .error .absent
    | _                             => .error .outOfRange

def dimensions (t : Term) : Except Failure (List Dimension) := do
  distinct Dimension.text Dimension.alike ((← dimensionVariables t).map (⟨·⟩))

def anyOf (xs : List α) : Except Failure α :=
  match xs with
  | x :: _ => .ok x
  | []     => .error .noKey

def conditionOf (path value : Term) : Except Failure Condition := do
  let var ← anyOf ((leaves (· != .inclusion) path).filter isCountedVariable)
  let rels ← relations path
  let const ← anyOf ((leaves (fun _ => true) value).filter Term.isConstant)
  return { var, rels, const }

def conditionsOfPairs : List Term → List Condition → Except Failure (List Condition)
  | path :: value :: rest, cs => do
    conditionsOfPairs rest (← addNew Condition.text Condition.alike cs (← conditionOf path value))
  | _, cs => .ok cs

def conditionsFrom : Term → List Condition → Except Failure (List Condition)
  | .app _ op args _, cs => if op == .inclusion then conditionsOfPairs args cs else ofList args cs
  | _, cs => .ok cs
where
  ofList : List Term → List Condition → Except Failure (List Condition)
    | [], cs      => .ok cs
    | t :: ts, cs => do ofList ts (← conditionsFrom t cs)

def conditions (t : Term) : Except Failure (List Condition) :=
  conditionsFrom t []

def innerRelations (t : Term) : List Term :=
  ((leaves (fun op => op != .inclusion && op != .product) t).filter Term.isRelation).foldl
    (fun rels r => if rels.contains r then rels else rels ++ [r]) []

def subjectsWith (rels : List Term) : Term → Except Failure (List Subject)
  | t@(.app _ op args _) =>
    match op with
    | .inclusion   => .ok []
    | .aggregation => ofFirst rels args
    | .composition =>
      if args.head?.any isQuotient then ofSecond args else ofList (innerRelations t) args
    | _ => ofList rels args
  | t => .ok (if t.isVariable then [⟨t, rels⟩] else [])
where
  ofList (rels : List Term) : List Term → Except Failure (List Subject)
    | []      => .ok []
    | t :: ts => return (← subjectsWith rels t) ++ (← ofList rels ts)
  ofFirst (rels : List Term) : List Term → Except Failure (List Subject)
    | []     => .error .outOfRange
    | t :: _ => subjectsWith rels t
  ofSecond : List Term → Except Failure (List Subject)
    | _ :: .app _ _ (t :: _) _ :: _ => subjectsWith rels t
    | _ :: .app _ _ [] _ :: _       => .error .outOfRange
    | _ :: _ :: _                   => .error .absent
    | _                             => .error .outOfRange

def subjects (t : Term) : Except Failure (List Subject) :=
  subjectsWith [] t

-- The three lists of an explanation. A subject may have no words.
structure Report where
  subjects   : List (Option String) := []
  dimensions : List String := []
  conditions : List String := []
  deriving Inhabited

def Report.sorted (r : Report) : Report :=
  { r with
    dimensions := r.dimensions.mergeSort (· ≤ ·), conditions := r.conditions.mergeSort (· ≤ ·) }

def words (s : Option String) : Except Failure String :=
  match s with
  | some t => .ok t
  | none   => .error .mistyped

def articleOf (s : Subject) : Option String :=
  s.var.head?.bind (·.article)

def pluralOf (var : Term) : Except Failure String := do
  words (← domainPlural var)

def lowest (order low high : String) : String :=
  if order == "asc" then low else high

def aggregateText (cls : Int) (s : Subject) : Except Failure String := do
  let neuter := articleOf s == some "het"
  if cls == 2 then return "aantal " ++ (← s.text)
  else if cls == 3 then return (if neuter then "totaal " else "totale ") ++ (← s.text)
  else return (if neuter then "gemiddeld " else "gemiddelde ") ++ (← s.text)

def extremeText (order : String) (s : Subject) (dim : Option Dimension) :
    Except Failure String := do
  let front := lowest order "de kleinste 5 " "de grootste 5 "
  let whose ← pluralOf (dim.elim s.var (·.var))
  let by_ ← match dim with
    | some d =>
      if begins "een" (← s.var.name) then
        pure ("aantal " ++ (← s.text) ++ " van een " ++ (← domainName d.var))
      else s.text
    | none => s.text
  return front ++ whose ++ " volgens " ++ by_

def mostText (order : String) (s : Subject) (d : Dimension) : Except Failure String := do
  return "de 5 " ++ (← pluralOf d.var) ++ " met het "
    ++ lowest order "kleinste aantal " "grootste aantal " ++ (← pluralOf s.var)

def rankedText (order : String) (how : String) (s : Subject) (whose : Term) :
    Except Failure String := do
  let front := "de 5 " ++ (← pluralOf whose) ++ " met " ++ how ++ (← words (articleOf s))
    ++ lowest order " laagste " " hoogste "
  return front ++ (← s.text)

def averageText (s : Subject) (ds : List Denominator) : Except Failure String := do
  let subject ← s.text
  return subject ++ " per " ++ (← (← anyOf ds).text)

def subjectText (t : Term) (cls : Int) (order : Option String) (subjects : List Subject)
    (dims : List Dimension) : Except Failure String := do
  match subjects with
  | [] => return ""
  | s :: more =>
    if cls == 2 || cls == 3 || cls == 4 then aggregateText cls s
    else if cls == 5 then return "gemiddeld aantal " ++ (← averageText s (← denominators t))
    else match order with
      | none => return ""
      | some o =>
        if cls == 6 then extremeText o s dims.head?
        else if cls == 10 then rankedText o "" s ((more.head?.getD s).var)
        else match dims with
          | [] => return ""
          | d :: _ =>
            if cls == 7 then mostText o s d
            else if cls == 8 then rankedText o "in totaal " s d.var
            else if cls == 9 then rankedText o "gemiddeld " s d.var
            else do
              let whose ← pluralOf d.var
              return "de 5 " ++ whose ++ " met gemiddeld het "
                ++ lowest o "laagste aantal " "hoogste aantal "
                ++ (← averageText s (← denominators t))

def inform (t : Term) (cls : Int) (order : Option String) : Except Failure Report := do
  let cs ← conditions t
  let dims ← dimensions t
  let subjects ← subjects t
  let condTexts := cs.mapM Condition.text
  if cls == 1 then
    return { subjects := ← subjects.mapM Subject.text?, conditions := ← condTexts }
  else if 2 ≤ cls && cls ≤ 11 then
    if cls == 5 || cls == 11 then discard (denominators t)
    let text ← subjectText t cls order subjects dims
    let dimTexts ← if cls ≤ 5 then dims.mapM Dimension.text else pure []
    return { subjects := [some text], dimensions := dimTexts, conditions := ← condTexts }
  else return {}

end Explanation
end Inquiry
