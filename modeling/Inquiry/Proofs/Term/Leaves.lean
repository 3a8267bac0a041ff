import Mathlib
import Inquiry.Proofs.Term.Congruence

/-!
The leaves of a type: the kinds that the parts of its members belong to. Equal types have as many
leaves.
-/

namespace Inquiry
namespace Term

variable {K : Term → Prop} {t u d c : Term} {ts us : List Term} {n m : Nat} {ty : Option Term}

theorem sizeOf_typeArg {i : Nat} {a : Term} (h : t.typeArg i = .ok a) : sizeOf a < sizeOf t := by
  have ⟨n, op, ts, ty, hty, ha⟩ := typeArg_eq_ok.mp h
  have hts := List.sizeOf_lt_of_mem (List.mem_of_getElem? ha)
  cases t <;> simp only [type?, reduceCtorEq] at hty <;> subst hty <;> simp +arith <;> omega

-- The number of kinds in a type. A selection has as many as the domain that it selects from, and a
-- range as many as the codomain that it lies in.
def leaves : Term → Nat
  | app _ .cartesianProduct ts _ => (ts.attach.map fun t => leaves t.1).sum
  | app _ .selection (t :: _) _  =>
    match _h : t.dom with
    | .ok d    => leaves d
    | .error _ => 0
  | app _ .range (t :: _) _ =>
    match _h : t.cod with
    | .ok c    => leaves c
    | .error _ => 0
  | _ => 1
termination_by t => sizeOf t
decreasing_by
  · have := List.sizeOf_lt_of_mem t.2
    simp +arith; omega
  · have := sizeOf_typeArg _h
    simp +arith; omega
  · have := sizeOf_typeArg _h
    simp +arith; omega

@[simp]
theorem leaves_kind (h : KindHead) (ty d c s : Option Term) : (kind h ty d c s).leaves = 1 := by
  rw [leaves] <;> simp

@[simp]
theorem leaves_cartesianProduct : (app n .cartesianProduct ts ty).leaves = (ts.map leaves).sum := by
  rw [leaves]
  simp

theorem leaves_selection (h : t.dom = .ok d) : (app n .selection (t :: ts) ty).leaves = d.leaves := by
  rw [leaves]
  split <;> simp_all

theorem leaves_range (h : t.cod = .ok c) : (app n .range (t :: ts) ty).leaves = c.leaves := by
  rw [leaves]
  split <;> simp_all

theorem leaves_selection_of_error {e : Failure} (h : t.dom = .error e) :
    (app n .selection (t :: ts) ty).leaves = 0 := by
  rw [leaves]
  split <;> simp_all

theorem leaves_range_of_error {e : Failure} (h : t.cod = .error e) :
    (app n .range (t :: ts) ty).leaves = 0 := by
  rw [leaves]
  split <;> simp_all

theorem Twins.exists_app {op : Op} (h : Twins K (app n op ts ty) u) :
    ∃ m us ty', u = app m op us ty' ∧ List.Forall₂ (Twins K) ts us := by
  have he := h.equal
  cases u <;> simp [equals] at he
  case app m op' us ty' =>
    obtain ⟨rfl, he⟩ := he
    exact ⟨m, us, ty', rfl, Twins.forall₂ h.left.apply.left h.right.apply.left (equalsList_iff.mp he)⟩

theorem Twins.symm (h : Twins K t u) : Twins K u t :=
  ⟨h.right, h.left, equals_symm h.equal⟩

theorem Twins.exists_app_cons {op : Op} (h : Twins K (app n op (t :: ts) ty) u) :
    ∃ m v us ty', u = app m op (v :: us) ty' ∧ Twins K t v := by
  obtain ⟨m, us, ty', rfl, hts⟩ := h.exists_app
  obtain ⟨v, us, ht, -, rfl⟩ := List.forall₂_cons_left_iff.mp hts
  exact ⟨m, v, us, ty', rfl, ht⟩

theorem Twins.leaves_eq (hK : Coherent K) (h : Twins K t u) : t.leaves = u.leaves := by
  have hR := Twins.indistinct hK
  -- The recursion goes through the types of the arguments, not only through the arguments.
  induction t using leaves.induct generalizing u with
  | case1 n ts ty ih =>
    obtain ⟨m, us, ty', rfl, hts⟩ := h.exists_app
    rw [leaves_cartesianProduct, leaves_cartesianProduct]
    congr 1
    refine map_eq_map_of_forall₂ (forall₂_mem hts) ?_
    rintro t u ⟨ht, _, htu⟩
    exact ih ⟨t, ht⟩ htu
  | case2 n t ts ty d hd ih =>
    obtain ⟨m, v, us, ty', rfl, ht⟩ := h.exists_app_cons
    have ⟨d', hd', hdd⟩ := (hR.typeArg ht 0).exists_ok hd
    rw [leaves_selection hd, leaves_selection hd', ih hdd]
  | case3 n t ts ty e hd =>
    obtain ⟨m, v, us, ty', rfl, ht⟩ := h.exists_app_cons
    have ⟨_, hd'⟩ := (hR.typeArg ht 0).exists_error hd
    rw [leaves_selection_of_error hd, leaves_selection_of_error hd']
  | case4 n t ts ty c hc ih =>
    obtain ⟨m, v, us, ty', rfl, ht⟩ := h.exists_app_cons
    have ⟨c', hc', hcc⟩ := (hR.typeArg ht 1).exists_ok hc
    rw [leaves_range hc, leaves_range hc', ih hcc]
  | case5 n t ts ty e hc =>
    obtain ⟨m, v, us, ty', rfl, ht⟩ := h.exists_app_cons
    have ⟨_, hc'⟩ := (hR.typeArg ht 1).exists_error hc
    rw [leaves_range_of_error hc, leaves_range_of_error hc']
  | case6 t hp hs hr =>
    have ht : t.leaves = 1 := by rw [leaves] <;> assumption
    have hu : u.leaves = 1 := by
      rw [leaves]
      · rintro n us ty rfl
        have ⟨_, _, _, ht, _⟩ := h.symm.exists_app
        exact hp _ _ _ ht
      · rintro n v us ty rfl
        have ⟨_, _, _, _, ht, _⟩ := h.symm.exists_app_cons
        exact hs _ _ _ _ ht
      · rintro n v us ty rfl
        have ⟨_, _, _, _, ht, _⟩ := h.symm.exists_app_cons
        exact hr _ _ _ _ ht
    rw [ht, hu]

end Term
end Inquiry
