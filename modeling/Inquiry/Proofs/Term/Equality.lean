import Mathlib
import Inquiry.Term.Equality

/-!
Equality of terms is symmetric and transitive. A term equals itself if no part of it is missing.
-/

namespace Inquiry
namespace Term

instance : ReflBEq Term where
  rfl {t} := by
    change t.same t = true
    cases t <;> simp [same, serial?, position?]

theorem beq_symm {t u : Term} (h : t == u) : u == t := by
  have h : t.same u := h
  change u.same t
  simp only [same] at h ⊢
  cases ht : t.serial? <;> cases hu : u.serial? <;> simp_all

theorem equals_number {n : Int} {t : Term} : (number n).equals t ↔ t.position? = some n := by
  cases t <;> simp [equals]

theorem equals_flag {b : Bool} {t : Term} :
    (flag b).equals t ↔ t.position? = some (if b then 1 else 0) := by
  cases t <;> simp [equals]

mutual

theorem equals_symm : {t u : Term} → t.equals u → u.equals t
  | kind .., u, h => by cases u <;> simp_all [equals]
  | gap .., u, h  => by cases u <;> simp_all [equals]
  | app _ op args _, u, h => by
    cases u <;> simp only [equals, Bool.and_eq_true, beq_iff_eq, Bool.false_eq_true] at h ⊢
    case app => exact ⟨h.left.symm, equalsList_symm h.right⟩
  | number _, u, h => by
    rw [equals_number] at h
    cases u <;> simp_all [position?, equals]
  | flag b, u, h => by
    rw [equals_flag] at h
    cases u <;> simp_all [position?, equals]
  | nothing, u, h => by simp [equals] at h

theorem equalsList_symm : {ts us : List Term} →
    equals.equalsList ts us → equals.equalsList us ts
  | [], us, h => by cases us <;> simp_all [equals.equalsList]
  | t :: ts, us, h => by
    cases us <;> simp only [equals.equalsList, Bool.and_eq_true, Bool.false_eq_true] at h ⊢
    exact ⟨equals_symm h.left, equalsList_symm h.right⟩

end

mutual

theorem equals_trans : {t u v : Term} → t.equals u → u.equals v → t.equals v
  | kind .., u, v, h, h' => by cases u <;> cases v <;> simp_all [equals]
  | gap .., u, v, h, h'  => by cases u <;> cases v <;> simp_all [equals]
  | app _ op args _, u, v, h, h' => by
    cases u <;> simp only [equals, Bool.and_eq_true, beq_iff_eq, Bool.false_eq_true] at h
    cases v <;> simp only [equals, Bool.and_eq_true, beq_iff_eq, Bool.false_eq_true] at h' ⊢
    exact ⟨h.left.trans h'.left, equalsList_trans h.right h'.right⟩
  | number _, u, v, h, h' => by
    rw [equals_number] at h ⊢
    cases u <;> simp_all [position?, equals]
  | flag b, u, v, h, h' => by
    rw [equals_flag] at h ⊢
    cases u <;> simp_all [position?, equals]
  | nothing, u, v, h, h' => by simp [equals] at h

theorem equalsList_trans : {ts us vs : List Term} → equals.equalsList ts us →
    equals.equalsList us vs → equals.equalsList ts vs
  | [], us, vs, h, h' => by cases us <;> cases vs <;> simp_all [equals.equalsList]
  | t :: ts, us, vs, h, h' => by
    cases us <;> simp only [equals.equalsList, Bool.and_eq_true, Bool.false_eq_true] at h
    cases vs <;> simp only [equals.equalsList, Bool.and_eq_true, Bool.false_eq_true] at h' ⊢
    exact ⟨equals_trans h.left h'.left, equalsList_trans h.right h'.right⟩

end

theorem equalsList_self {ts : List Term} :
    equals.equalsList ts ts ↔ ∀ t ∈ ts, t.equals t := by
  induction ts <;> simp_all [equals.equalsList]

@[simp]
theorem equals_kind_self (h : KindHead) (ty d c s : Option Term) :
    (kind h ty d c s).equals (kind h ty d c s) := by
  simp [equals]

theorem equals_app {m n : Nat} {op : Op} {ts : List Term} {ty ty' : Option Term}
    (h : ∀ t ∈ ts, t.equals t) : (app m op ts ty).equals (app n op ts ty') := by
  simp [equals, equalsList_self.mpr h]

end Term
end Inquiry
