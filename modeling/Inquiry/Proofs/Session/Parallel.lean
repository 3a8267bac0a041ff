import Mathlib
import Inquiry.Proofs.Agree
import Inquiry.Proofs.Run

/-!
Actions that run in parallel: started in the same session, both fail, or both give results that are
related and leave the same session behind.
-/

namespace Inquiry

open List

namespace SessionM

-- What an action gives together with the session that it leaves.
def outcome (x : SessionM α) (s : Session) : Except Failure (α × Session) :=
  match x.runIn s with
  | (.ok a, s')   => .ok (a, s')
  | (.error e, _) => .error e

theorem outcome_bind (x : SessionM α) (f : α → SessionM β) (s : Session) :
    (x >>= f).outcome s = x.outcome s >>= fun p => (f p.1).outcome p.2 := by
  simp only [outcome, runIn_bind]
  rcases x.runIn s with ⟨_ | a, s'⟩ <;> rfl

theorem outcome_eq_ok {x : SessionM α} {s s' : Session} {a : α} :
    x.outcome s = .ok (a, s') ↔ x.Gives s a s' := by
  unfold outcome Gives
  rcases x.runIn s with ⟨_ | b, s₁⟩ <;> simp

def Parallel (x : SessionM α) (R : α → β → Prop) (y : SessionM β) : Prop :=
  ∀ s, Agree (fun p q => p.2 = q.2 ∧ R p.1 q.1) (x.outcome s) (y.outcome s)

variable {x : SessionM α} {y : SessionM β} {R : α → β → Prop} {S : γ → δ → Prop} {a : α} {b : β}
  {f : α → SessionM γ} {g : β → SessionM δ}

theorem parallel_pure (h : R a b) : (pure a : SessionM α).Parallel R (pure b) :=
  fun _ => .ok ⟨rfl, h⟩

theorem parallel_throw {e e' : Failure} : (throw e : SessionM α).Parallel R (throw e') :=
  fun _ => .error

theorem parallel_ofExcept {x : Except Failure α} {y : Except Failure β} (h : Agree R x y) :
    (ofExcept x : SessionM α).Parallel R (ofExcept y) := by
  cases h
  case ok h  => exact parallel_pure h
  case error => exact parallel_throw

theorem parallel_refl (x : SessionM α) : x.Parallel (· = ·) x :=
  fun _ => (Agree.of_eq rfl).imp fun _ _ h => h ▸ ⟨rfl, rfl⟩

namespace Parallel

theorem bind (h : x.Parallel R y) (hf : ∀ a b, R a b → (f a).Parallel S (g b)) :
    (x >>= f).Parallel S (y >>= g) := by
  intro s
  rw [outcome_bind, outcome_bind]
  refine (h s).bind fun p q hpq => ?_
  rw [← hpq.1]
  exact hf p.1 q.1 hpq.2 p.2

theorem mono {R' : α → β → Prop} (h : x.Parallel R y) (hr : ∀ a b, R a b → R' a b) :
    x.Parallel R' y :=
  fun s => (h s).imp fun _ _ hpq => ⟨hpq.1, hr _ _ hpq.2⟩

theorem map {f : α → γ} {g : β → δ} (h : x.Parallel R y) (hf : ∀ a b, R a b → S (f a) (g b)) :
    (f <$> x).Parallel S (g <$> y) := by
  rw [map_eq_pure_bind, map_eq_pure_bind]
  exact h.bind fun a b hab => parallel_pure (hf a b hab)

theorem same_bind {x : SessionM α} {f : α → SessionM γ} {g : α → SessionM δ}
    (hf : ∀ a, (f a).Parallel S (g a)) : (x >>= f).Parallel S (x >>= g) :=
  (parallel_refl x).bind fun a _ h => h ▸ hf a

theorem mapM {as : List α} {bs : List β} (h : Forall₂ R as bs)
    (hf : ∀ a b, R a b → (f a).Parallel S (g b)) :
    (as.mapM f).Parallel (Forall₂ S) (bs.mapM g) := by
  induction h
  case nil => exact parallel_pure .nil
  case cons h _ ih =>
    rw [mapM_cons, mapM_cons]
    exact (hf _ _ h).bind fun c d hc => ih.bind fun cs ds hcs => parallel_pure (.cons hc hcs)

theorem foldlM {f : γ → α → SessionM γ} {g : δ → β → SessionM δ} {as : List α} {bs : List β} {c : γ}
    {d : δ} (h : Forall₂ R as bs) (hc : S c d)
    (hf : ∀ c d a b, S c d → R a b → (f c a).Parallel S (g d b)) :
    (as.foldlM f c).Parallel S (bs.foldlM g d) := by
  induction h generalizing c d
  case nil => exact parallel_pure hc
  case cons h _ ih =>
    rw [foldlM_cons, foldlM_cons]
    exact (hf c d _ _ hc h).bind fun c d hc => ih hc

theorem exists_gives {s s' : Session} (h : x.Parallel R y) (hx : x.Gives s a s') :
    ∃ b, y.Gives s b s' ∧ R a b := by
  obtain ⟨⟨b, s₁⟩, hy, hs, hr⟩ := (h s).exists_ok (outcome_eq_ok.mpr hx)
  obtain rfl : s' = s₁ := hs
  exact ⟨b, outcome_eq_ok.mp hy, hr⟩

end Parallel

end SessionM
end Inquiry
