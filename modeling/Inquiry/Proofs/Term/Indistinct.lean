import Mathlib
import Inquiry.Proofs.Agree
import Inquiry.Proofs.Run

/-!
What typing does not see. Arguments that have their roles, types and positions in common are
admitted by an operation or refused by it together. Inclusion and selection look at more: where an
argument stands first.
-/

namespace Inquiry

open List

namespace Term

variable {t u : Term} {ts us : List Term} {n m : Nat} {op : Op} {R : Term → Term → Prop}

theorem apply_eq_ok : apply n op ts = .ok t ↔
    op.admits ts = .ok true ∧ ∃ ty, op.resultType (n + 1) ts = .ok ty ∧ t = .app n op ts ty := by
  simp only [apply, bind_eq_ok]
  constructor
  · rintro ⟨b, hb, h⟩
    cases b <;> simp only [Bool.false_eq_true, if_false, if_true, reduceCtorEq, bind_eq_ok,
      pure_eq_ok] at h
    obtain ⟨ty, hty, rfl⟩ := h
    exact ⟨hb, ty, hty, rfl⟩
  · rintro ⟨hb, ty, hty, rfl⟩
    exact ⟨true, hb, by simp [hty]⟩

theorem form_eq_ok : op.form n ts = .ok t ↔ op.admits ts = .ok true ∧ t = .app n op ts none := by
  simp only [Op.form, bind_eq_ok]
  constructor
  · rintro ⟨b, hb, h⟩
    cases b <;> simp_all
  · rintro ⟨hb, rfl⟩
    exact ⟨true, hb, rfl⟩

-- What operations that give types build has no type of its own.
theorem apply_of_form (hr : op.role = .type) (h : op.form n ts = .ok t) : apply n op ts = .ok t := by
  have ⟨ha, ht⟩ := form_eq_ok.mp h
  refine apply_eq_ok.mpr ⟨ha, none, ?_, ht⟩
  cases op <;> simp_all [Op.role, Op.resultType]

-- Terms that no operation tells apart.
structure Indistinct (R : Term → Term → Prop) : Prop where
  role     : ∀ {t u}, R t u → t.role? = u.role?
  position : ∀ {t u}, R t u → t.position? = u.position?
  type     : ∀ {t u}, R t u → Option.Rel R t.type? u.type?
  args     : ∀ {t u}, R t u → Agree (Forall₂ R) t.args u.args
  equals   : ∀ {d d' c c'}, R d d' → R c c' → d.equals c = d'.equals c'
  built    : ∀ {n m op ts us ty ty'}, Forall₂ R ts us → Option.Rel R ty ty' →
    apply n op ts = .ok (.app n op ts ty) → apply m op us = .ok (.app m op us ty') →
      R (.app n op ts ty) (.app m op us ty')

namespace Indistinct

theorem hasRole (hR : Indistinct R) (h : R t u) (r : Role) : t.hasRole r = u.hasRole r := by
  simp only [Term.hasRole, Term.role, hR.role h]

theorem typeArg (hR : Indistinct R) (h : R t u) (i : Nat) : Agree R (t.typeArg i) (u.typeArg i) := by
  have hty := hR.type h
  simp only [Term.typeArg]
  generalize t.type? = ty at hty
  generalize u.type? = uy at hty
  cases hty
  case none => exact .error
  case some h =>
    refine (hR.args h).bind fun as bs hab => ?_
    have hr := rel_getElem? hab i
    generalize as[i]? = a at hr
    generalize bs[i]? = b at hr
    cases hr
    case none   => exact .error
    case some h => exact .ok h

end Indistinct

section Respect

variable (hR : Indistinct R) (h : Forall₂ R ts us)
include hR h

theorem agree_consecutive : Agree (· = ·) (consecutive ts) (consecutive us) := by
  induction h
  case nil => exact .ok rfl
  case cons ht h ih =>
    cases h
    case nil => exact .ok rfl
    case cons hu h =>
      refine (hR.typeArg ht 0).bind fun d d' hd => (hR.typeArg hu 1).bind fun c c' hc => ?_
      rw [hR.equals hd hc]
      split
      case isTrue  => exact ih
      case isFalse => exact .ok rfl

theorem agree_commonDomain : Agree (· = ·) (commonDomain ts) (commonDomain us) := by
  cases h
  case nil => exact .ok rfl
  case cons ht h =>
    refine (hR.typeArg ht 0).bind fun d d' hd => .allM (.cons ht h) fun t u htu => ?_
    refine (Agree.of_eq (hR.hasRole htu _)).bind_bool ?_ (.ok rfl)
    exact (hR.typeArg htu 0).bind fun e e' he => .ok (hR.equals he hd)

theorem agree_allM_hasRole (r : Role) :
    Agree (· = ·) (ts.allM (hasRole r)) (us.allM (hasRole r)) :=
  .allM h fun _ _ htu => .of_eq (hR.hasRole htu r)

theorem agree_admits_projection : Agree (· = ·) (Op.projection.admits ts) (Op.projection.admits us) := by
  simp only [Op.admits, h.length_eq]
  split
  case isTrue => exact .ok rfl
  case isFalse =>
    refine (agree_allM_hasRole hR (forall₂_dropLast h) .type).bind_bool (.ok ?_) (.ok rfl)
    have hl := rel_getLast? h
    generalize ts.getLast? = a at hl
    generalize us.getLast? = b at hl
    cases hl
    case none    => rfl
    case some hl => simp [isPositionIn, hR.position hl]

theorem agree_admits_aggregation :
    Agree (· = ·) (Op.aggregation.admits ts) (Op.aggregation.admits us) := by
  cases h
  case nil => exact .ok rfl
  case cons hv h =>
    cases h
    case nil => exact .ok rfl
    case cons hw h =>
      cases h
      case cons => exact .ok rfl
      case nil =>
        refine (agree_allM_hasRole hR (.cons hv (.cons hw .nil)) .element).bind_bool ?_ (.ok rfl)
        exact (hR.typeArg hv 0).bind fun d d' hd => (hR.typeArg hw 0).bind fun e e' he =>
          .ok (hR.equals hd he)

theorem agree_admits_functionalType :
    Agree (· = ·) (Op.functionalType.admits ts) (Op.functionalType.admits us) := by
  cases h
  case nil => exact .ok rfl
  case cons hd h =>
    cases h
    case nil => exact .ok rfl
    case cons hc h =>
      cases h
      case cons => exact .ok rfl
      case nil  => exact agree_allM_hasRole hR (.cons hd (.cons hc .nil)) .type

theorem agree_admits (op : Op) (ho : op ≠ .inclusion) (ho' : op ≠ .selection) :
    Agree (· = ·) (op.admits ts) (op.admits us) := by
  cases op
  case inclusion      => contradiction
  case selection      => contradiction
  case projection     => exact agree_admits_projection hR h
  case aggregation    => exact agree_admits_aggregation hR h
  case functionalType => exact agree_admits_functionalType hR h
  case composition =>
    simp only [Op.admits, h.length_eq]
    split
    case isTrue => exact .ok rfl
    case isFalse =>
      exact (agree_allM_hasRole hR h .element).bind_bool (agree_consecutive hR h) (.ok rfl)
  case product =>
    simp only [Op.admits, h.length_eq]
    split
    case isTrue  => exact .ok rfl
    case isFalse => exact agree_commonDomain hR h
  case cartesianProduct =>
    simp only [Op.admits, h.length_eq]
    split
    case isTrue  => exact .ok rfl
    case isFalse => exact agree_allM_hasRole hR h .type
  case inverse | range =>
    cases h
    case nil => exact .ok rfl
    case cons ht h =>
      cases h
      case nil  => exact .of_eq (hR.hasRole ht _)
      case cons => exact .ok rfl

end Respect

theorem agree_form (hR : Indistinct R) (op : Op) (h : Forall₂ R ts us) (hr : op.role = .type)
    (ha : Agree (· = ·) (op.admits ts) (op.admits us)) :
    Agree R (op.form n ts) (op.form m us) := by
  have hf : Agree (fun a b => a = app n op ts none ∧ b = app m op us none) (op.form n ts)
    (op.form m us) := ha.bind_bool (.ok ⟨rfl, rfl⟩) .error
  refine hf.results.imp ?_
  rintro a b ⟨ha, hb, rfl, rfl⟩
  exact hR.built h .none (apply_of_form hr ha) (apply_of_form hr hb)

theorem agree_functionalType {d c d' c' : Term} (hR : Indistinct R) (hd : R d d') (hc : R c c') :
    Agree (Option.Rel R) (some <$> Op.functionalType.form n [d, c])
      (some <$> Op.functionalType.form m [d', c']) := by
  have h : Forall₂ R [d, c] [d', c'] := .cons hd (.cons hc .nil)
  exact (agree_form hR .functionalType h rfl (agree_admits_functionalType hR h)).map fun _ _ => .some

theorem agree_resultType (hR : Indistinct R) (h : Forall₂ R ts us)
    (ha : Agree (· = ·) (op.admits ts) (op.admits us)) :
    Agree (Option.Rel R) (op.resultType n ts) (op.resultType m us) := by
  cases op
  case cartesianProduct | selection | functionalType | range => exact .ok .none
  case projection =>
    have hd := forall₂_dropLast h
    have hc := agree_admits hR hd .cartesianProduct (by simp) (by simp)
    refine (agree_form hR .cartesianProduct hd rfl hc).bind fun d d' hd => ?_
    rw [bind_getLast?_eq h fun _ _ => hR.position]
    cases us.getLast?.bind position?
    case none => exact .error
    case some k =>
      have hr := rel_getElem? h (k.toNat - 1)
      simp only
      generalize ts[k.toNat - 1]? = a at hr
      generalize us[k.toNat - 1]? = b at hr
      cases hr
      case none    => exact .error
      case some hc => exact agree_functionalType hR hd hc
  case composition =>
    have hfirst := rel_getElem? h 0
    have hlast := rel_getLast? h
    simp only [Op.resultType, head?_eq_getElem?]
    generalize ts[0]? = t at hfirst
    generalize us[0]? = u at hfirst
    generalize ts.getLast? = t' at hlast
    generalize us.getLast? = u' at hlast
    cases hfirst <;> cases hlast
    case some.some _ _ ht _ _ hu =>
      exact (hR.typeArg hu 0).bind fun d d' hd => (hR.typeArg ht 1).bind fun c c' hc =>
        agree_functionalType hR hd hc
    all_goals exact .error
  case product =>
    cases h
    case nil => exact .error
    case cons ht h =>
      refine (Agree.mapM (.cons ht h) fun t u htu => hR.typeArg htu 1).bind fun cs cs' hcs => ?_
      have hc := agree_admits hR hcs .cartesianProduct (by simp) (by simp)
      exact (agree_form hR .cartesianProduct hcs rfl hc).bind fun c c' hc => (hR.typeArg ht 0).bind fun d d' hd =>
        agree_functionalType hR hd hc
  case inclusion =>
    cases h
    case nil => exact .error
    case cons ht h =>
      exact (agree_form hR .selection (.cons ht h) rfl ha).bind fun d d' hd => (hR.typeArg ht 0).bind fun c c' hc =>
        agree_functionalType hR hd hc
  case inverse =>
    cases h
    case nil => exact .error
    case cons ht h =>
      exact (agree_form hR .range (.cons ht h) rfl ha).bind fun d d' hd => (hR.typeArg ht 1).bind fun c c' hc =>
        agree_functionalType hR hd hc
  case aggregation =>
    cases h
    case nil => exact .error
    case cons hv h =>
      cases h
      case nil => exact .error
      case cons hw h =>
        exact (hR.typeArg hw 1).bind fun d d' hd => (hR.typeArg hv 1).bind fun c c' hc =>
          agree_functionalType hR hd hc

theorem agree_apply (hR : Indistinct R) (h : Forall₂ R ts us)
    (ha : Agree (· = ·) (op.admits ts) (op.admits us)) :
    Agree R (apply n op ts) (apply m op us) := by
  have hf : Agree (fun a b => ∃ ty ty', Option.Rel R ty ty' ∧ a = app n op ts ty ∧ b = app m op us ty')
      (apply n op ts) (apply m op us) :=
    ha.bind_bool ((agree_resultType hR h ha).bind fun ty ty' hty => .ok ⟨ty, ty', hty, rfl, rfl⟩) .error
  refine hf.results.imp ?_
  rintro a b ⟨ha, hb, ty, ty', hty, rfl, rfl⟩
  exact hR.built h hty ha hb

end Term
end Inquiry
