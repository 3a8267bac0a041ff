import Mathlib
import Inquiry.Proofs.Run
import Inquiry.Proofs.Term.Equality

/-!
Well-typed terms. An operation that is applied to elements with fitting ends gives an element, and
the ends of what it gives are known.
-/

namespace Inquiry

open List Term Op

theorem allM_eq_ok_true {f : α → Except ε Bool} {as : List α} (h : ∀ a ∈ as, f a = .ok true) :
    as.allM f = .ok true := by
  induction as
  case nil => rfl
  case cons a as ih =>
    simp only [forall_mem_cons] at h
    simp [List.allM, h.left, ih h.right]

namespace Term

structure IsType (t : Term) : Prop where
  role  : t.role? = some .type
  -- nothing is missing in it
  whole : t.equals t

-- The element `t` goes from `d` to `c`.
structure Goes (t d c : Term) : Prop where
  role   : t.role? = some .element
  whole  : t.equals t
  dom    : t.dom = .ok d
  cod    : t.cod = .ok c
  source : d.IsType
  target : c.IsType

-- The elements, the last one first, lead from `d` to `c`.
inductive Leads : List Term → Term → Term → Prop
  | single {t d c} : (Goes t d c) → Leads [t] d c
  | cons {t ts d d' c c'} : (Goes t d' c) → (Leads ts d c') → (d'.equals c') → Leads (t :: ts) d c

-- What tuples of members of the types `cs` belong to; `none` is for those without components.
def IsTupleType (none : Term) (cs : List Term) (t : Term) : Prop :=
  match cs with
  | []  => t = none
  | [c] => t = c
  | cs  => ∃ n, t = .app n .cartesianProduct cs .none

-- The element that gives what the elements `ts` give, together.
def IsTuple (ts : List Term) (t : Term) : Prop :=
  match ts with
  | [u] => t = u
  | ts  => ∃ n ty, t = .app n .product ts (some ty)

variable {t : Term}

theorem hasRole_eq {r r' : Role} (h : t.role? = some r) : t.hasRole r' = .ok (r == r') := by
  simp [hasRole, role, h, Functor.map, Except.map]

theorem IsType.hasRole (h : t.IsType) : t.hasRole .type = .ok true :=
  hasRole_eq h.role

theorem Goes.hasRole {d c : Term} (h : t.Goes d c) : t.hasRole .element = .ok true :=
  hasRole_eq h.role

namespace Leads

variable {t d c : Term} {ts : List Term}

theorem ne_nil (h : Leads ts d c) : ts ≠ [] := by
  cases h <;> simp

theorem forall_goes (h : Leads ts d c) : ∀ t ∈ ts, ∃ d c, t.Goes d c := by
  induction h
  case single h => simpa using ⟨_, _, h⟩
  case cons h _ _ ih => simpa using ⟨⟨_, _, h⟩, ih⟩

theorem head : Leads ts d c → ∃ t, ts.head? = some t ∧ t.cod = .ok c ∧ c.IsType
  | single h | cons h _ _ => ⟨_, rfl, h.cod, h.target⟩

theorem last (h : Leads ts d c) : ∃ t, ts.getLast? = some t ∧ t.dom = .ok d ∧ d.IsType := by
  induction h
  case single h => exact ⟨_, rfl, h.dom, h.source⟩
  case cons t ts _ _ _ _ _ h _ ih =>
    have ⟨u, hu, hd⟩ := ih
    exact ⟨u, by cases ts <;> simp_all, hd⟩

theorem consecutive (h : Leads ts d c) : consecutive ts = .ok true := by
  induction h
  case single => rfl
  case cons t ts _ _ _ _ ht h he ih =>
    cases ts
    case nil => exact absurd rfl h.ne_nil
    case cons u ts =>
      have ⟨v, hv, hc, _⟩ := h.head
      simp only [head?_cons, Option.some.injEq] at hv
      subst hv
      simp [Term.consecutive, ht.dom, hc, he, ih]

theorem snoc {d' c' : Term} (h : Leads ts d c) (ht : t.Goes d' c') (he : d.equals c') :
    Leads (ts ++ [t]) d' c := by
  induction h
  case single h          => exact .cons h (.single ht) he
  case cons h _ he' ih => exact .cons h (ih he) he'

end Leads
end Term

open Term

namespace Op

theorem form_functionalType {n : Nat} {d c : Term} (hd : d.IsType) (hc : c.IsType) :
    functionalType.form n [d, c] = .ok (.app n functionalType [d, c] none) := by
  simp [form, admits, hd.hasRole, hc.hasRole]

theorem form_cartesianProduct {n : Nat} {cs : List Term} (hn : 2 ≤ cs.length)
    (hc : ∀ c ∈ cs, c.IsType) :
    cartesianProduct.form n cs = .ok (.app n cartesianProduct cs none) := by
  have h : cs.allM (hasRole .type) = .ok true := allM_eq_ok_true fun c h => (hc c h).hasRole
  simp [form, admits, h, Nat.not_lt.mpr hn]

end Op

namespace Term

theorem isType_app {n : Nat} {op : Op} {ts : List Term} {ty : Option Term}
    (hr : op.role = .type) (hw : ∀ t ∈ ts, t.equals t) : (app n op ts ty).IsType where
  role  := by simp [role?, hr]
  whole := equals_app hw

theorem goes_app {n m : Nat} {op : Op} {ts : List Term} {d c : Term} (hr : op.role = .element)
    (hw : ∀ t ∈ ts, t.equals t) (hd : d.IsType) (hc : c.IsType) :
    (app n op ts (some (app m .functionalType [d, c] none))).Goes d c where
  role   := by simp [role?, hr]
  whole  := equals_app hw
  dom    := rfl
  cod    := rfl
  source := hd
  target := hc

-- An element that was built by an operation, numbered from `n`.
def Builds (n : Nat) (op : Op) (ts : List Term) (d c : Term) : Prop :=
  ∃ ty, apply n op ts = .ok (.app n op ts (some ty)) ∧ (app n op ts (some ty)).Goes d c

variable {n : Nat} {d c : Term} {ts : List Term} {cs : List Term} {t : Term}

theorem builds_composition (h : Leads ts d c) (hn : 2 ≤ ts.length) :
    Builds n .composition ts d c := by
  have hr : ts.allM (hasRole .element) = .ok true :=
    allM_eq_ok_true fun t ht => have ⟨_, _, h⟩ := h.forall_goes t ht; h.hasRole
  have hw : ∀ t ∈ ts, t.equals t := fun t ht => have ⟨_, _, h⟩ := h.forall_goes t ht; h.whole
  have ⟨t, ht, hc, hct⟩ := h.head
  have ⟨u, hu, hd, hdt⟩ := h.last
  refine ⟨_, ?_, goes_app (m := n + 1) rfl hw hdt hct⟩
  simp [apply, admits, resultType, Nat.not_lt.mpr hn, hr, h.consecutive, ht, hu, hc, hd,
    form_functionalType hdt hct]

theorem commonDomain_eq_ok (ht : t.dom = .ok d)
    (h : ∀ u ∈ t :: ts, ∃ d' c, u.Goes d' c ∧ d'.equals d) : commonDomain (t :: ts) = .ok true := by
  simp only [commonDomain, ht, ok_bind]
  refine allM_eq_ok_true fun u hu => ?_
  obtain ⟨_, _, hu, he⟩ := h u hu
  simp [hu.hasRole, hu.dom, he]

theorem mapM_cod_eq_ok (h : Forall₂ (fun t c => ∃ d, t.Goes d c) ts cs) : ts.mapM cod = .ok cs :=
  mapM_eq_ok.mpr (h.imp fun _ _ ⟨_, h⟩ => h.cod)

-- The elements go to the types `cs` from one and the same type.
def Spread (ts : List Term) (d : Term) (cs : List Term) : Prop :=
  Forall₂ (fun t c => ∃ d', t.Goes d' c ∧ d'.equals d) ts cs

theorem Spread.forall_goes (h : Spread ts d cs) : ∀ t ∈ ts, ∃ d' c, t.Goes d' c ∧ d'.equals d := by
  induction h
  case nil => simp
  case cons ht _ ih =>
    have ⟨_, ht⟩ := ht
    exact forall_mem_cons.mpr ⟨⟨_, _, ht⟩, ih⟩

theorem Spread.forall_isType (h : Spread ts d cs) : ∀ c ∈ cs, c.IsType := by
  induction h
  case nil => simp
  case cons ht _ ih =>
    have ⟨_, ht, _⟩ := ht
    simpa using ⟨ht.target, ih⟩

theorem Spread.imp {d' : Term} (h : Spread ts d cs) (he : d.equals d') : Spread ts d' cs :=
  Forall₂.imp (fun _ _ ⟨_, ht, h⟩ => ⟨_, ht, equals_trans h he⟩) h

theorem exists_spread (h : ∀ t ∈ ts, ∃ d' c, t.Goes d' c ∧ d'.equals d) : ∃ cs, Spread ts d cs := by
  induction ts
  case nil => exact ⟨[], .nil⟩
  case cons t ts ih =>
    have ⟨⟨d', c, ht⟩, h⟩ := forall_mem_cons.mp h
    have ⟨cs, hcs⟩ := ih h
    exact ⟨c :: cs, .cons ⟨d', ht⟩ hcs⟩

theorem builds_product (h : Spread (t :: ts) d cs) (hn : 2 ≤ (t :: ts).length) :
    ∃ d' m, d'.equals d ∧
      Builds n .product (t :: ts) d' (.app m .cartesianProduct cs none) := by
  have ⟨d', c, ht, hd⟩ := h.forall_goes t (by simp)
  have hs := h.imp (equals_symm hd)
  have hc : cs.length = (t :: ts).length := (Forall₂.length_eq h).symm
  have hct := h.forall_isType
  have hw : ∀ u ∈ t :: ts, u.equals u := fun u hu => have ⟨_, _, h, _⟩ := h.forall_goes u hu; h.whole
  have hm := mapM_cod_eq_ok (Forall₂.imp (fun _ _ ⟨_, h, _⟩ => ⟨_, h⟩) h)
  have ht' : (app (n + 1) .cartesianProduct cs none).IsType :=
    isType_app rfl fun c h => (hct c h).whole
  refine ⟨d', n + 1, hd, _, ?_, goes_app (m := n + 2) rfl hw ht.source ht'⟩
  simp only [apply, admits, Nat.not_lt.mpr hn, if_false, commonDomain_eq_ok ht.dom hs.forall_goes,
    ok_bind, if_true, resultType, hm, form_cartesianProduct (hc ▸ hn) hct, ht.dom,
    form_functionalType ht.source ht', Except.map_ok]
  rfl

theorem builds_projection {k : Nat} (hn : 2 ≤ cs.length) (hc : ∀ c ∈ cs, c.IsType)
    (hk : cs[k]? = some c) :
    ∃ m, Builds n .projection (cs ++ [.number (k + 1)]) (.app m .cartesianProduct cs none) c := by
  have hl : k < cs.length := (List.getElem?_eq_some_iff.mp hk).1
  have ht : (app (n + 1) .cartesianProduct cs none).IsType :=
    isType_app rfl fun c h => (hc c h).whole
  have hct : c.IsType := hc c (mem_of_getElem? hk)
  have hr : cs.allM (hasRole .type) = .ok true := allM_eq_ok_true fun c h => (hc c h).hasRole
  have hp : isPositionIn cs.length (.number (k + 1)) := by simp [isPositionIn, position?]; omega
  have hk' : (cs ++ [.number (k + 1)])[k]? = some c := by
    rw [getElem?_append_left hl, hk]
  refine ⟨n + 1, _, ?_, goes_app (m := n + 2) rfl ?_ ht hct⟩
  · have hn' : ¬cs.length + 1 < 3 := by omega
    simp [apply, admits, resultType, hn', hr, hp, position?, hk',
      form_cartesianProduct hn hc, form_functionalType ht hct]
  · simpa [or_imp, forall_and, equals, position?] using fun c h => (hc c h).whole

theorem builds_inverse (h : t.Goes d c) :
    ∃ m, Builds n .inverse [t] (.app m .range [t] none) c := by
  have ht : (app (n + 1) .range [t] none).IsType := isType_app rfl (by simp [h.whole])
  refine ⟨n + 1, _, ?_, goes_app (m := n + 2) rfl (by simp [h.whole]) ht h.target⟩
  simp [apply, admits, resultType, form, h.hasRole, h.cod, ht.hasRole, h.target.hasRole]

theorem builds_aggregation {v w d' c' : Term} (hv : v.Goes d c) (hw : w.Goes d' c')
    (he : d.equals d') : Builds n .aggregation [v, w] c' c := by
  refine ⟨_, ?_, goes_app (m := n + 1) rfl (by simp [hv.whole, hw.whole]) hw.target hv.target⟩
  simp [apply, admits, resultType, hv.hasRole, hw.hasRole, hv.dom, hw.dom, hv.cod, hw.cod, he,
    form_functionalType hw.target hv.target]

end Term
end Inquiry
