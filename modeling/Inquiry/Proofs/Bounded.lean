import Mathlib
import Inquiry.Proofs.Run

/-!
Computations that never ask for a place past the end of a list. They may fail for other reasons; what
they give has a property.
-/

namespace Inquiry

open List

def Bounded (P : α → Prop) : Except Failure α → Prop
  | .ok a    => P a
  | .error e => e ≠ .outOfRange

namespace Bounded

variable {x : Except Failure α} {f : α → Except Failure β} {P P' : α → Prop} {Q : β → Prop}
  {as : List α}

@[simp]
theorem ok {a : α} : Bounded P (.ok a) ↔ P a := Iff.rfl

@[simp]
theorem error {e : Failure} : Bounded P (.error e) ↔ e ≠ .outOfRange := Iff.rfl

@[simp]
theorem pure {a : α} : Bounded P (Pure.pure a) ↔ P a := Iff.rfl

@[simp]
theorem throw {e : Failure} : Bounded P (MonadExcept.throw e) ↔ e ≠ .outOfRange := Iff.rfl

theorem bind (h : Bounded P x) (hf : ∀ a, P a → Bounded Q (f a)) : Bounded Q (x >>= f) := by
  cases x
  case ok a    => exact hf a h
  case error e => exact h

theorem imp (h : Bounded P x) (hp : ∀ a, P a → P' a) : Bounded P' x := by
  cases x
  case ok a    => exact hp a h
  case error e => exact h

theorem map {g : α → β} (h : Bounded P x) (hg : ∀ a, P a → Q (g a)) : Bounded Q (g <$> x) := by
  cases x
  case ok a    => exact hg a h
  case error e => exact h

theorem mapM {R : α → β → Prop} (h : ∀ a ∈ as, Bounded (R a) (f a)) :
    Bounded (Forall₂ R as) (as.mapM f) := by
  induction as
  case nil => exact .nil
  case cons a as ih =>
    rw [mapM_cons]
    have ⟨ha, has⟩ := forall_mem_cons.mp h
    exact ha.bind fun b hb => (ih has).bind fun bs hbs => .cons hb hbs

theorem foldlM {f : β → α → Except Failure β} {b : β} (hb : Q b)
    (h : ∀ b a, Q b → Bounded Q (f b a)) : Bounded Q (as.foldlM f b) := by
  induction as generalizing b
  case nil => exact hb
  case cons a as ih =>
    rw [foldlM_cons]
    exact (h b a hb).bind fun b' hb' => ih hb'

theorem allM {f : α → Except Failure Bool} (h : ∀ a, Bounded (fun _ => True) (f a)) :
    Bounded (fun _ => True) (as.allM f) := by
  induction as
  case nil => trivial
  case cons a as ih =>
    rw [List.allM]
    exact (h a).bind fun b _ => by cases b <;> simp [ih]

theorem anyM {f : α → Except Failure Bool} (h : ∀ a, Bounded (fun _ => True) (f a)) :
    Bounded (fun _ => True) (as.anyM f) := by
  induction as
  case nil => trivial
  case cons a as ih =>
    rw [List.anyM]
    exact (h a).bind fun b _ => by cases b <;> simp [ih]

theorem filterM {f : α → Except Failure Bool} (h : ∀ a, Bounded (fun _ => True) (f a)) :
    Bounded (fun _ => True) (as.filterM f) := by
  have aux (acc : List α) : Bounded (fun _ => True) (as.filterAuxM f acc) := by
    induction as generalizing acc
    case nil => trivial
    case cons a as ih => exact (h a).bind fun b _ => ih _
  exact (aux []).bind fun _ _ => trivial

end Bounded

namespace SessionM

-- The action never asks for a place past the end of a list, and what it gives has a property.
def Safe (x : SessionM α) (P : α → Prop) : Prop :=
  ∀ s, Bounded P (x.runIn s).1

variable {x : SessionM α} {f : α → SessionM β} {P P' : α → Prop} {Q : β → Prop} {a : α}
  {as : List α}

theorem safe_pure (h : P a) : (pure a : SessionM α).Safe P :=
  fun _ => h

theorem safe_throw {e : Failure} (h : e ≠ .outOfRange) : (throw e : SessionM α).Safe P :=
  fun _ => h

theorem safe_ofExcept {e : Except Failure α} (h : Bounded P e) : (ofExcept e : SessionM α).Safe P := by
  cases e
  case ok a    => exact fun _ => h
  case error e => exact fun _ => h

theorem safe_modifyGet {g : Session → α × Session} : (modifyGet g : SessionM α).Safe fun _ => True :=
  fun _ => trivial

theorem Safe.bind (h : x.Safe P) (hf : ∀ a, P a → (f a).Safe Q) : (x >>= f).Safe Q := by
  intro s
  have hx := h s
  rw [runIn_bind]
  generalize x.runIn s = r at hx
  match r with
  | (.ok a, s')    => exact hf a hx s'
  | (.error e, s') => exact hx

theorem Safe.imp (h : x.Safe P) (hp : ∀ a, P a → P' a) : x.Safe P' :=
  fun s => (h s).imp hp

theorem Safe.map {g : α → β} (h : x.Safe P) (hg : ∀ a, P a → Q (g a)) : (g <$> x).Safe Q := by
  rw [map_eq_pure_bind]
  exact h.bind fun a ha => safe_pure (hg a ha)

theorem safe_mapM_forall₂ {R : γ → α → Prop} {S : γ → β → Prop} {cs : List γ} (h : Forall₂ R cs as)
    (hf : ∀ c a, R c a → (f a).Safe (S c)) : (as.mapM f).Safe (Forall₂ S cs) := by
  induction h
  case nil => exact safe_pure .nil
  case cons h _ ih =>
    rw [mapM_cons]
    exact (hf _ _ h).bind fun b hb => ih.bind fun bs hbs => safe_pure (.cons hb hbs)

theorem safe_mapM {R : α → β → Prop} (h : ∀ a ∈ as, (f a).Safe (R a)) :
    (as.mapM f).Safe (Forall₂ R as) := by
  refine safe_mapM_forall₂ (R := fun c a => c = a ∧ a ∈ as)
    (forall₂_same.mpr fun a ha => ⟨rfl, ha⟩) ?_
  rintro a _ ⟨rfl, ha⟩
  exact h a ha

theorem safe_foldlM {f : β → α → SessionM β} {b : β} (hb : Q b) (h : ∀ b a, Q b → (f b a).Safe Q) :
    (as.foldlM f b).Safe Q := by
  induction as generalizing b
  case nil => exact safe_pure hb
  case cons a as ih =>
    rw [foldlM_cons]
    exact (h b a hb).bind fun b' hb' => ih hb'

end SessionM
end Inquiry
