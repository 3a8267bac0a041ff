import Inquiry.Request.Meaning
import Inquiry.Session.Recall

/-!
Terms that requests are built from: compositions, products and projections that leave out what is
not needed, and the variables that count the objects of a type or take them all together.
-/

namespace Inquiry

-- How a domain is taken from another one: by parts of it, as a whole, or not at all.
inductive Alignment where
  | parts (ps : List Term)
  | whole
  | missing

namespace SessionM

def joined (op : Op) : List Term → SessionM Term
  | []  => return .nothing
  | [t] => return t
  | ts  => app op ts

def compose (ts : List Term) : SessionM Term := joined .composition ts
def pair (ts : List Term) : SessionM Term := joined .product ts
def cross (ts : List Term) : SessionM Term := joined .cartesianProduct ts

def aggregate (ts : List Term) : SessionM Term :=
  if ts.length != 2 then return .nothing else app .aggregation ts

def projection (ts : List Term) : SessionM Term :=
  if ts.length < 2 then return .nothing else app .projection ts

def invert (ts : List Term) : SessionM Term :=
  if ts.length != 1 then return .nothing else app .inverse ts

def restrict (ts : List Term) : SessionM Term :=
  if ts.length < 2 then return .nothing else app .inclusion ts

def part (t : Term) (n : Int) : SessionM Term := do
  match ← ofExcept t.cod with
  | .app _ .cartesianProduct parts _ => compose [← projection (parts ++ [.number n]), t]
  | _ => return t

def counting (p : Term) : SessionM Term := do
  let title := "een(" ++ (← ofExcept p.name) ++ ")"
  match ← kindOfSort title "Variable" with
  | .nothing =>
    let s ← get
    let v ← make { cls := .variable, name := title, domain := p.present, codomain := some s.number }
    know title v
    return v
  | v => return v

def together (p : Term) : SessionM Term := do
  let title := "alle(" ++ p.printed ++ ")"
  match ← kindOfSort title "Variable" with
  | .nothing =>
    let v ← make { cls := .variable, name := title, domain := p.present, codomain := some .one }
    know title v
    make { cls := .variable, name := title, domain := p.present, codomain := some .one }
  | v => return v

def alignParts (us : List Term) : List Term → SessionM Alignment
  | [] => return .parts []
  | d :: ds => do
    if d == .one then return .whole
    match us.findIdx? (· == d) with
    | none => return .missing
    | some i =>
      let p ← projection (us ++ [.number (i + 1)])
      match ← alignParts us ds with
      | .parts ps => return .parts (p :: ps)
      | r         => return r

def align (t u : Term) : SessionM Term := do
  let ts ← ofExcept t.domList
  let us ← ofExcept u.domList
  if ts == us then return t
  match ← alignParts us ts with
  | .missing  => return .nothing
  | .whole    => compose [t, ← together (← cross us)]
  | .parts ps => compose [t, ← pair ps]

end SessionM
end Inquiry
