import Inquiry.Session.Basic

/-!
Matching a term with a pattern. Gaps of the pattern stand for subterms of the term; kinds match by
class, name and ends.
-/

namespace Inquiry
namespace Term

abbrev MatchM := ExceptT Failure (StateM (TermTable Term))

def bindGap (hole t : Term) : MatchM Bool := do
  match (← get).get? hole with
  | some .nothing | some (.number _) | some (.flag _) => throw .absent
  | some u => return u.equals t
  | none   => modify (·.put hole t); return true

def matchPart : Term → Term → MatchM Bool
  | t@(app _ op args _), pattern =>
    match pattern with
    | gap .. => bindGap pattern t
    | app _ op' args' _ =>
      if op == op' && args.length == args'.length then matchList args args' else return false
    | _ => return false
  | t@(kind h _ d c _), pattern =>
    match pattern with
    | gap .. => bindGap pattern t
    | kind h' _ d' c' _ =>
      if h.cls == h'.cls && h.name == h'.name then
        if h.cls.isType then return true
        else do if ← matchEnd d d' then matchEnd c c' else return false
      else return false
    | _ => return false
  | gap h _, pattern =>
    match pattern with
    | gap h' _ =>
      if h.name == h'.name then
        if h.role == .element then throw .absent else return h.role == .type
      else return false
    | _ => return false
  | t, pattern =>
    match t, pattern with
    | _, gap .. => bindGap pattern t
    | number _, number _ | flag _, flag _ | nothing, nothing => throw .absent
    | _, _ => return false
where
  matchList : List Term → List Term → MatchM Bool
    | t :: ts, p :: ps => do if ← matchPart t p then matchList ts ps else return false
    | _, _ => return true
  matchEnd (e p : Option Term) : MatchM Bool := do
    set ([] : TermTable Term)
    match e, p with
    | some t, p             => matchPart t (p.getD nothing)
    | none, some p@(gap ..) => bindGap p nothing
    | none, some _          => return false
    | none, none            => throw .absent

def matches? (t pattern : Term) : Except Failure Bool × TermTable Term :=
  (ExceptT.run (matchPart t pattern)).run []

end Term

-- Shapes that terms are compared with: types and elements that are left open, the variables that
-- count objects and take them together, two totals, and the quotient of these two.
structure Shapes where
  type₁    : Term
  type₂    : Term
  type₃    : Term
  counting : Term
  together : Term
  value₁   : Term
  key₁     : Term
  value₂   : Term
  key₂     : Term
  total₁   : Term
  total₂   : Term
  average  : Term

namespace SessionM

def openType (name : String) : SessionM Term := do
  ofExcept (Term.makeGap (← serials 1) name 0 none none none)

def openElement (name : String) (domain codomain : Term) : SessionM Term := do
  let type ← app .functionalType [domain, codomain]
  ofExcept (Term.makeGap (← serials 1) name 1 none (some type) none)

def shapes : SessionM Shapes := do
  let p ← openType "p"
  let r ← openType "r"
  let s ← openType "s"
  let number := (← get).number
  let counting ← make { cls := .variable, name := "een", domain := some p, codomain := some number }
  let together ← make { cls := .variable, name := "alle", domain := some p, codomain := some .one }
  let v ← openElement "v" p number
  let w ← openElement "w" p r
  let u ← openElement "u" s number
  let z ← openElement "z" s r
  let total₁ ← app .aggregation [v, w]
  let total₂ ← app .aggregation [u, z]
  let pair : Term := .app (← serials 1) .cartesianProduct [] none
  let division ← make
    { cls := .operator, name := "(/)", domain := some pair, codomain := some number }
  let both := Term.app (← serials 1) .product [total₁, total₂] none
  let average := Term.app (← serials 1) .composition [division, both] none
  return {
    type₁ := p, type₂ := r, type₃ := s, counting, together, value₁ := v, key₁ := w, value₂ := u,
    key₂ := z, total₁, total₂, average }

end SessionM
end Inquiry
