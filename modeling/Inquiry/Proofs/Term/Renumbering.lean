import Mathlib
import Inquiry.Proofs.Term.Indistinct
import Inquiry.Proofs.Term.Pairing

/-!
Terms that differ only in the serial numbers of their applications. Typing does not see these,
unless an inclusion or a selection has the same application as an argument twice: then more pairs
are looked at.
-/

namespace Inquiry

open List

namespace Term

def unnumbered : Term → Term
  | app _ op args ty => app 0 op (unnumberedList args) (unnumberedOption ty)
  | t                => t
where
  unnumberedList : List Term → List Term
    | []      => []
    | t :: ts => unnumbered t :: unnumberedList ts
  unnumberedOption : Option Term → Option Term
    | none   => none
    | some t => some (unnumbered t)

def Alike (t u : Term) : Prop :=
  t.unnumbered = u.unnumbered

variable {t u : Term} {ts us : List Term} {ty uy : Option Term} {n m : Nat} {op : Op}

theorem unnumberedList_eq_iff :
    unnumbered.unnumberedList ts = unnumbered.unnumberedList us ↔ Forall₂ Alike ts us := by
  induction ts generalizing us <;> cases us <;> simp_all [unnumbered.unnumberedList, Alike]

theorem unnumberedOption_eq_iff :
    unnumbered.unnumberedOption ty = unnumbered.unnumberedOption uy ↔ Option.Rel Alike ty uy := by
  cases ty <;> cases uy <;> simp [unnumbered.unnumberedOption, Alike]

namespace Alike

theorem refl (t : Term) : Alike t t := rfl

theorem refl_list (ts : List Term) : Forall₂ Alike ts ts :=
  unnumberedList_eq_iff.mp rfl

theorem trans_option {vy : Option Term} (h : Option.Rel Alike ty uy) (h' : Option.Rel Alike uy vy) :
    Option.Rel Alike ty vy :=
  unnumberedOption_eq_iff.mp
    ((unnumberedOption_eq_iff.mpr h).trans (unnumberedOption_eq_iff.mpr h'))

theorem app (hts : Forall₂ Alike ts us) (hty : Option.Rel Alike ty uy) :
    Alike (.app n op ts ty) (.app m op us uy) := by
  simp [Alike, unnumbered, unnumberedList_eq_iff.mpr hts, unnumberedOption_eq_iff.mpr hty]

theorem eq_or_apps (h : Alike t u) : t = u ∨ ∃ n m op ts us ty uy, t = .app n op ts ty ∧
    u = .app m op us uy ∧ Forall₂ Alike ts us ∧ Option.Rel Alike ty uy := by
  cases t <;> cases u <;> simp [Alike, unnumbered] at h
  case app.app =>
    obtain ⟨rfl, hts, hty⟩ := h
    exact .inr ⟨_, _, _, _, _, _, _, rfl, rfl, unnumberedList_eq_iff.mp hts,
      unnumberedOption_eq_iff.mp hty⟩
  all_goals simp_all

end Alike

mutual

theorem equals_unnumbered : (t u : Term) → t.unnumbered.equals u.unnumbered = t.equals u
  | .app _ op ts _, u => by cases u <;> simp [unnumbered, equals, equalsList_unnumbered ts]
  | .kind .., u       => by cases u <;> simp [unnumbered, equals]
  | .gap .., u        => by cases u <;> simp [unnumbered, equals]
  | .number _, u      => by cases u <;> simp [unnumbered, equals, position?]
  | .flag _, u        => by cases u <;> simp [unnumbered, equals, position?]
  | .nothing, u       => by cases u <;> simp [unnumbered, equals]

theorem equalsList_unnumbered : (ts us : List Term) → equals.equalsList
    (unnumbered.unnumberedList ts) (unnumbered.unnumberedList us) = equals.equalsList ts us
  | [], us      => by cases us <;> simp [unnumbered.unnumberedList, equals.equalsList]
  | t :: ts, us => by
    cases us
    case nil => simp [unnumbered.unnumberedList, equals.equalsList]
    case cons u us =>
      simp [unnumbered.unnumberedList, equals.equalsList, equals_unnumbered t, equalsList_unnumbered ts]

end

namespace Alike

theorem type (h : Alike t u) : Option.Rel Alike t.type? u.type? := by
  obtain rfl | ⟨_, _, _, _, _, _, _, rfl, rfl, _, hty⟩ := h.eq_or_apps
  case inl => cases t.type? <;> constructor; rfl
  case inr => exact hty

theorem args (h : Alike t u) : Agree (Forall₂ Alike) t.args u.args := by
  obtain rfl | ⟨_, _, _, _, _, _, _, rfl, rfl, hts, _⟩ := h.eq_or_apps
  case inl => exact (Agree.of_eq rfl).imp fun ts _ h => h ▸ refl_list ts
  case inr => exact .ok hts

theorem equals_eq {d d' c c' : Term} (hd : Alike d d') (hc : Alike c c') :
    d.equals c = d'.equals c' := by
  rw [← equals_unnumbered d, hd, hc, equals_unnumbered]

theorem equals (h : Alike t u) (hw : t.equals t) : t.equals u := by
  rw [← equals_eq (refl t) h]
  exact hw

theorem indistinct : Indistinct Alike where
  role h := by
    obtain rfl | ⟨_, _, _, _, _, _, _, rfl, rfl, _⟩ := h.eq_or_apps <;> rfl
  position h := by
    obtain rfl | ⟨_, _, _, _, _, _, _, rfl, rfl, _⟩ := h.eq_or_apps <;> rfl
  type            := type
  args            := args
  equals          := equals_eq
  built hts hty _ _ := app hts hty

end Alike

theorem SameCodomain.alike {t' u' : Term} (h : SameCodomain t u) (ht : Alike t t') (hu : Alike u u') :
    SameCodomain t' u' := by
  have ⟨c, d, hc, hd, he⟩ := h
  have ⟨c', hc', hcc⟩ := (Alike.indistinct.typeArg ht 1).exists_ok hc
  have ⟨d', hd', hdd⟩ := (Alike.indistinct.typeArg hu 1).exists_ok hd
  exact ⟨c', d', hc', hd', hcc.equals_eq hdd ▸ he⟩

theorem Paired.alike {looked : Nat → Prop} (h : Forall₂ Alike ts us) (hp : Paired looked ts) :
    Paired looked us := by
  intro i t' u' hl ht' hu'
  have ⟨t, ht, htt⟩ := exists_getElem?_left h ht'
  have ⟨u, hu, huu⟩ := exists_getElem?_left h hu'
  exact (hp i t u hl ht hu).alike htt huu

theorem agree_admits_paired (ho : op = .inclusion ∨ op = .selection) (h : Forall₂ Alike ts us)
    (ha : op.admits ts = .ok true) (hp : Paired (fun _ => True) ts) (hs : Identified us) :
    op.admits us = .ok true := by
  rw [admits_conditions ho] at ha ⊢
  rw [← h.length_eq]
  split at ha
  case isTrue => simp at ha
  case isFalse hl =>
    have he : us.length % 2 = 0 := by
      rw [← h.length_eq]
      simp at hl
      exact hl.right
    have ⟨b, hb, hba⟩ := bind_eq_ok.mp ha
    obtain rfl : b = true := by
      by_contra hf
      simp [hf] at hba
    have hd := (agree_commonDomain Alike.indistinct h).eq_ok_iff.mp hb
    have hp := hp.alike h
    have ⟨b, hb, hbp⟩ := pairedCodomains_decides he (fun t => hp.exists_cod he) hs
    obtain rfl : b = true := hbp.mpr (hp.imp fun _ _ => trivial)
    simp only [hl, hd, hb]
    rfl

end Term
end Inquiry
