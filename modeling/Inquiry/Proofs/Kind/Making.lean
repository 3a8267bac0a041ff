import Mathlib
import Inquiry.Proofs.Run

/-!
The parts of a kind that was made: which of them are there, and where they come from.
-/

namespace Inquiry
namespace Term

-- The kinds that are made, numbered from `n`. An element has its type from its construction or from
-- its two ends, or else it has none.
inductive Made (n : Nat) : Term → Prop
  | type {h s} : h.cls.isElement = false → Made n (.kind h none none none s)
  | built {h t ty ts d c} : h.cls.isElement → t.returnType (n + 1) = .ok (some ty) →
    ty.args = .ok ts → ts[0]? = some d → ts[1]? = some c →
    Made n (.kind h (some ty) (some d) (some c) (some t))
  | between {h d c ty} : h.cls.isElement → Op.functionalType.form (n + 1) [d, c] = .ok ty →
    Made n (.kind h (some ty) (some d) (some c) none)
  | loose {h d c} : h.cls.isElement → d = none ∨ c = none → Made n (.kind h none d c none)

variable {n : Nat} {k : Term} {spec : KindSpec}

theorem eq_false_of_refused {x : Except Failure Bool} {f : Bool → Except Failure α} {a : α}
    (h : (x >>= f) = .ok a) (hf : ∀ a, ¬f true = .ok a) : f false = .ok a := by
  obtain ⟨b, _, h⟩ := bind_eq_ok.mp h
  cases b
  case false => exact h
  case true  => exact absurd h (hf a)

theorem exists_sort {ty d c s : Option Term} (h : (do
      let sort ← spec.sort
      checkParts "element" (some sort) ty
      pure (kind (spec.head n sort) ty d c s)) = .ok k) :
    ∃ sort, k = kind (spec.head n sort) ty d c s := by
  obtain ⟨sort, _, h⟩ := bind_eq_ok.mp h
  obtain ⟨_, _, h⟩ := bind_eq_ok.mp h
  exact ⟨sort, (pure_eq_ok.mp h).symm⟩

theorem refuse_ne_ok (f : Unit → Except Failure α) (b : α) :
    ¬((do throw (.invalidKind (some (← spec.sort))) : Except Failure Unit) >>= f) = .ok b := by
  intro hb
  obtain ⟨_, hb, _⟩ := bind_eq_ok.mp hb
  obtain ⟨_, _, hb⟩ := bind_eq_ok.mp hb
  simp at hb

theorem makeElement_eq_ok (h : makeElement n spec = .ok k) : ∃ sort ty d c,
    k = kind (spec.head n sort) ty d c spec.constr ∧ (spec.cls.isElement → Made n k) ∧
      (spec.constr = none → d = spec.domain ∧ c = spec.codomain) := by
  rw [makeElement] at h
  replace h := eq_false_of_refused h fun a => refuse_ne_ok _ a
  replace h := eq_false_of_refused h fun a => refuse_ne_ok _ a
  replace h := eq_false_of_refused h fun a => refuse_ne_ok _ a
  simp only [Bool.false_eq_true, if_false] at h
  generalize spec.constr = s at h ⊢
  generalize spec.domain = d at h ⊢
  generalize spec.codomain = c at h ⊢
  cases s
  case some t =>
    obtain ⟨ty, hty, h⟩ := bind_eq_ok.mp h
    cases ty
    case none => simp [bind, Except.bind] at h
    case some ty =>
      obtain ⟨ends, hends, h⟩ := bind_eq_ok.mp h
      obtain ⟨d, hd, h⟩ := bind_eq_ok.mp h
      obtain ⟨c, hcod, h⟩ := bind_eq_ok.mp h
      obtain ⟨sort, rfl⟩ := exists_sort h
      refine ⟨sort, _, _, _, rfl, fun hc => ?_, by simp⟩
      exact .built hc hty hends (Sequence.getElem?_of_get hd) (Sequence.getElem?_of_get hcod)
  case none =>
    cases d <;> cases c
    case some.some d c =>
      obtain ⟨ty, hty, h⟩ := bind_eq_ok.mp h
      obtain ⟨sort, rfl⟩ := exists_sort h
      exact ⟨sort, _, _, _, rfl, fun hc => .between hc hty, fun _ => ⟨rfl, rfl⟩⟩
    all_goals
      obtain ⟨sort, rfl⟩ := exists_sort h
      exact ⟨sort, _, _, _, rfl, fun hc => .loose hc (by simp), fun _ => ⟨rfl, rfl⟩⟩

theorem makeType_eq_ok (h : makeType n spec = .ok k) :
    ∃ sort, k = kind (spec.head n sort) none none none spec.constr := by
  rw [makeType] at h
  replace h := eq_false_of_refused h fun a => by simp [bind_eq_ok]
  obtain ⟨sort, _, h⟩ := bind_eq_ok.mp h
  obtain ⟨_, _, h⟩ := bind_eq_ok.mp h
  exact ⟨sort, (pure_eq_ok.mp h).symm⟩

theorem make_eq_ok (h : make n spec = .ok k) : Made n k ∧ k.serial? = some n := by
  have element {spec : KindSpec} (hc : spec.cls.isElement) (h : makeElement n spec = .ok k) :
      Made n k ∧ k.serial? = some n := by
    obtain ⟨_, _, _, _, rfl, hm, _⟩ := makeElement_eq_ok h
    exact ⟨hm hc, rfl⟩
  have type {spec : KindSpec} (hc : spec.cls.isElement = false) (h : makeType n spec = .ok k) :
      Made n k ∧ k.serial? = some n := by
    obtain ⟨_, rfl⟩ := makeType_eq_ok h
    exact ⟨.type hc, rfl⟩
  rw [make] at h
  split at h
  case h_1 hc => exact type (by simp [hc, KindClass.isElement, KindClass.isType]) h
  case h_2 hc => exact element (by simp [hc, KindClass.isElement, KindClass.isType]) h
  case h_3 =>
    split at h
    case isTrue hc  => exact type (by simp [KindClass.isElement, hc]) h
    case isFalse hc => exact element (by simp [KindClass.isElement, hc]) h

end Term
end Inquiry
