import Mathlib

/-!
Computations that agree: both fail, or both give a result and the results are related. Checks and
constructions that are made of the same steps agree on lists of related entries.
-/

namespace Inquiry

open List

-- Two computations fail together, or else give results that are related.
inductive Agree (R : α → β → Prop) : Except ε α → Except ε β → Prop
  | ok {a b} : R a b → Agree R (.ok a) (.ok b)
  | error {e e'} : Agree R (.error e) (.error e')

namespace Agree

variable {R : α → β → Prop} {S : γ → δ → Prop} {x : Except ε α} {y : Except ε β}
  {as : List α} {bs : List β} {f : α → Except ε Bool} {g : β → Except ε Bool}

theorem bind {f : α → Except ε γ} {g : β → Except ε δ} (h : Agree R x y)
    (hf : ∀ a b, R a b → Agree S (f a) (g b)) : Agree S (x >>= f) (y >>= g) := by
  cases h
  case ok h  => exact hf _ _ h
  case error => exact .error

theorem map {f : α → γ} {g : β → δ} (h : Agree R x y) (hf : ∀ a b, R a b → S (f a) (g b)) :
    Agree S (f <$> x) (g <$> y) := by
  cases h
  case ok h  => exact .ok (hf _ _ h)
  case error => exact .error

theorem imp {R' : α → β → Prop} (h : Agree R x y) (hr : ∀ a b, R a b → R' a b) : Agree R' x y := by
  cases h
  case ok h  => exact .ok (hr _ _ h)
  case error => exact .error

theorem results (h : Agree R x y) : Agree (fun a b => x = .ok a ∧ y = .ok b ∧ R a b) x y := by
  cases h
  case ok h  => exact .ok ⟨rfl, rfl, h⟩
  case error => exact .error

theorem exists_ok {a : α} (h : Agree R x y) (hx : x = .ok a) : ∃ b, y = .ok b ∧ R a b := by
  cases h
  case ok b h => exact ⟨b, rfl, Except.ok.inj hx ▸ h⟩
  case error  => simp at hx

theorem exists_error {e : ε} (h : Agree R x y) (hx : x = .error e) : ∃ e', y = .error e' := by
  cases h
  case ok       => simp at hx
  case error e' => exact ⟨e', rfl⟩

theorem of_eq {x y : Except ε α} (h : x = y) : Agree (· = ·) x y := by
  subst h
  cases x
  case ok    => exact .ok rfl
  case error => exact .error

theorem eq_ok_iff {x y : Except ε α} {a : α} (h : Agree (· = ·) x y) : x = .ok a ↔ y = .ok a := by
  cases h <;> simp_all

theorem bind_bool {x y : Except ε Bool} {f : Bool → Except ε γ} {g : Bool → Except ε δ}
    (h : Agree (· = ·) x y) (hf : Agree S (f true) (g true)) (hf' : Agree S (f false) (g false)) :
    Agree S (x >>= f) (y >>= g) := by
  refine h.bind fun b _ hb => hb ▸ ?_
  cases b
  case true  => exact hf
  case false => exact hf'

theorem allM (h : Forall₂ R as bs) (hf : ∀ a b, R a b → Agree (· = ·) (f a) (g b)) :
    Agree (· = ·) (as.allM f) (bs.allM g) := by
  induction h
  case nil => exact .ok rfl
  case cons h _ ih =>
    exact (hf _ _ h).bind_bool ih (.ok rfl)

theorem anyM (h : Forall₂ R as bs) (hf : ∀ a b, R a b → Agree (· = ·) (f a) (g b)) :
    Agree (· = ·) (as.anyM f) (bs.anyM g) := by
  induction h
  case nil => exact .ok rfl
  case cons h _ ih =>
    exact (hf _ _ h).bind_bool (.ok rfl) ih

theorem foldlM {f : γ → α → Except ε γ} {g : δ → β → Except ε δ} {c : γ} {d : δ}
    (h : Forall₂ R as bs) (hc : S c d) (hf : ∀ c d a b, S c d → R a b → Agree S (f c a) (g d b)) :
    Agree S (as.foldlM f c) (bs.foldlM g d) := by
  induction h generalizing c d
  case nil => exact .ok hc
  case cons h _ ih =>
    rw [foldlM_cons, foldlM_cons]
    exact (hf c d _ _ hc h).bind fun c d hc => ih hc

theorem filterM (h : Forall₂ R as bs) (hf : ∀ a b, R a b → Agree (· = ·) (f a) (g b)) :
    Agree (Forall₂ R) (as.filterM f) (bs.filterM g) := by
  have aux {acc acc'} (hacc : Forall₂ R acc acc') :
      Agree (Forall₂ R) (as.filterAuxM f acc) (bs.filterAuxM g acc') := by
    induction h generalizing acc acc'
    case nil => exact .ok hacc
    case cons h _ ih => exact (hf _ _ h).bind_bool (ih (.cons h hacc)) (ih hacc)
  exact (aux .nil).bind fun _ _ hacc => .ok (rel_reverse hacc)

theorem mapM {f : α → Except ε γ} {g : β → Except ε δ} (h : Forall₂ R as bs)
    (hf : ∀ a b, R a b → Agree S (f a) (g b)) : Agree (Forall₂ S) (as.mapM f) (bs.mapM g) := by
  induction h
  case nil => exact .ok .nil
  case cons h _ ih =>
    simp only [mapM_cons]
    exact (hf _ _ h).bind fun c d hc => ih.bind fun cs ds hcs => .ok (.cons hc hcs)

end Agree

section Rows

variable {R : α → β → Prop} {as : List α} {bs : List β} {i : Nat}

theorem rel_getElem? (h : Forall₂ R as bs) (i : Nat) : Option.Rel R as[i]? bs[i]? := by
  induction h generalizing i
  case nil => exact .none
  case cons hr _ ih =>
    cases i
    case zero   => exact .some hr
    case succ i => exact ih i

theorem rel_of_getElem? {a : α} {b : β} (h : Forall₂ R as bs) (ha : as[i]? = some a)
    (hb : bs[i]? = some b) : R a b := by
  have h := rel_getElem? h i
  rw [ha, hb] at h
  cases h
  assumption

theorem exists_getElem?_left {b : β} (h : Forall₂ R as bs) (hb : bs[i]? = some b) :
    ∃ a, as[i]? = some a ∧ R a b := by
  have h := rel_getElem? h i
  rw [hb] at h
  generalize as[i]? = a at h
  cases h
  case some a h => exact ⟨a, rfl, h⟩

theorem exists_getElem?_right {a : α} (h : Forall₂ R as bs) (ha : as[i]? = some a) :
    ∃ b, bs[i]? = some b ∧ R a b := by
  have h := rel_getElem? h i
  rw [ha] at h
  generalize bs[i]? = b at h
  cases h
  case some b h => exact ⟨b, rfl, h⟩

theorem rel_getLast? (h : Forall₂ R as bs) : Option.Rel R as.getLast? bs.getLast? := by
  rw [getLast?_eq_getElem?, getLast?_eq_getElem?, h.length_eq]
  exact rel_getElem? h _

theorem bind_getLast?_eq {f : α → Option γ} {g : β → Option γ} (h : Forall₂ R as bs)
    (hf : ∀ a b, R a b → f a = g b) : as.getLast?.bind f = bs.getLast?.bind g := by
  have h := rel_getLast? h
  generalize as.getLast? = a at h
  generalize bs.getLast? = b at h
  cases h
  case none   => rfl
  case some h => exact hf _ _ h

theorem forall₂_dropLast (h : Forall₂ R as bs) : Forall₂ R as.dropLast bs.dropLast := by
  rw [dropLast_eq_take, dropLast_eq_take, h.length_eq]
  exact forall₂_take _ h

theorem isEmpty_eq_of_forall₂ (h : Forall₂ R as bs) : as.isEmpty = bs.isEmpty := by
  cases h <;> rfl

theorem forall₂_tail (h : Forall₂ R as bs) : Forall₂ R as.tail bs.tail := by
  cases h
  case nil      => exact .nil
  case cons _ h => exact h

theorem rel_zip {S : γ → δ → Prop} {cs : List γ} {ds : List δ} (h : Forall₂ R as bs)
    (h' : Forall₂ S cs ds) :
    Forall₂ (fun p q => R p.1 q.1 ∧ S p.2 q.2) (as.zip cs) (bs.zip ds) := by
  induction h generalizing cs ds
  case nil => exact .nil
  case cons h _ ih =>
    cases h'
    case nil         => exact .nil
    case cons h' hs => exact .cons ⟨h, h'⟩ (ih hs)

theorem findIdx?_eq {p : α → Bool} {q : β → Bool} (h : Forall₂ R as bs)
    (hp : ∀ a b, R a b → p a = q b) : as.findIdx? p = bs.findIdx? q := by
  induction h
  case nil          => rfl
  case cons h _ ih => rw [findIdx?_cons, findIdx?_cons, hp _ _ h, ih]

theorem forall₂_mem (h : Forall₂ R as bs) :
    Forall₂ (fun a b => a ∈ as ∧ b ∈ bs ∧ R a b) as bs := by
  have ⟨hl, h⟩ := forall₂_iff_get.mp h
  exact forall₂_iff_get.mpr ⟨hl, fun i hi hj => ⟨get_mem .., get_mem .., h i hi hj⟩⟩

end Rows

end Inquiry
