import Mathlib
import Inquiry.Proofs.Term.Equality
import Inquiry.Proofs.Term.Indistinct

/-!
Typing respects equality. Equal arguments are admitted by an operation or refused by it together,
and what is built from them is equal. Inclusion and selection are left out: they look up where an
argument stands first.
-/

namespace Inquiry

open List

namespace Term

theorem equalsList_iff {ts us : List Term} :
    equals.equalsList ts us ↔ Forall₂ (fun t u => t.equals u) ts us := by
  induction ts generalizing us <;> cases us <;> simp_all [equals.equalsList]

theorem position?_eq {t u : Term} (h : t.equals u) : t.position? = u.position? := by
  cases t <;> cases u <;> simp_all [equals, position?]

-- The terms that are built from the kinds and gaps in `K` by operations. The position that a
-- projection picks is an argument too.
inductive Formed (K : Term → Prop) : Term → Prop
  | kind {h ty d c s} : K (.kind h ty d c s) → (∀ t, ty = some t → Formed K t) →
    Formed K (.kind h ty d c s)
  | gap {h ty} : K (.gap h ty) → (∀ t, ty = some t → Formed K t) → Formed K (.gap h ty)
  | position {t} : t.position?.isSome → Formed K t
  | app {n op ts t} : (∀ u ∈ ts, Formed K u) → apply n op ts = .ok t → Formed K t

-- Kinds and gaps of one identifier have one role and equal types.
def Coherent (K : Term → Prop) : Prop :=
  ∀ t u, K t → K u → t.equals u →
    t.role? = u.role? ∧ Option.Rel (fun a b => a.equals b) t.type? u.type?

variable {K : Term → Prop} {t u : Term} {ts us : List Term} {n m : Nat} {op : Op}

-- The ends of what an operation builds from elements or types.
inductive EndsOf : Op → List Term → Term → Term → Prop
  | projection {ts k i d c} : (ts.getLast?.bind position? = some k) →
    (Op.cartesianProduct.form i ts.dropLast = .ok d) → (ts[k.toNat - 1]? = some c) →
    EndsOf .projection ts d c
  | composition {ts t u d c} : (ts.head? = some t) → (ts.getLast? = some u) → (u.dom = .ok d) →
    (t.cod = .ok c) → EndsOf .composition ts d c
  | product {t ts cs i d c} : (t.dom = .ok d) → ((t :: ts).mapM cod = .ok cs) →
    (Op.cartesianProduct.form i cs = .ok c) → EndsOf .product (t :: ts) d c
  | inclusion {t ts i d c} : (Op.selection.form i (t :: ts) = .ok d) → (t.dom = .ok c) →
    EndsOf .inclusion (t :: ts) d c
  | inverse {t ts i d c} : (Op.range.form i (t :: ts) = .ok d) → (t.cod = .ok c) →
    EndsOf .inverse (t :: ts) d c
  | aggregation {v w ts d c} : (w.cod = .ok d) → (v.cod = .ok c) →
    EndsOf .aggregation (v :: w :: ts) d c

-- The term is the functional type of what an operation builds.
def Types (op : Op) (ts : List Term) (ty : Term) : Prop :=
  ∃ n d c, Op.functionalType.form n [d, c] = .ok ty ∧ EndsOf op ts d c

theorem exists_ends {x y : Except Failure Term} {ty : Option Term}
    (h : (do let d ← x; let c ← y; some <$> Op.functionalType.form n [d, c]) = .ok ty) :
    ∃ d c t, ty = some t ∧ Op.functionalType.form n [d, c] = .ok t ∧ x = .ok d ∧ y = .ok c := by
  obtain ⟨d, hd, h⟩ := bind_eq_ok.mp h
  obtain ⟨c, hc, h⟩ := bind_eq_ok.mp h
  obtain ⟨t, hf, rfl⟩ := map_eq_ok.mp h
  exact ⟨d, c, t, rfl, hf, hd, hc⟩

theorem resultType_cases {ty : Option Term} (h : op.resultType n ts = .ok ty) :
    (op.role = .type ∧ ty = none) ∨ (op.role = .element ∧ ∃ t, ty = some t ∧ Types op ts t) := by
  cases op <;> simp only [Op.resultType, Except.ok.injEq] at h
  case cartesianProduct | selection | functionalType | range => exact .inl ⟨rfl, h.symm⟩
  all_goals refine .inr ⟨rfl, ?_⟩
  case projection =>
    obtain ⟨d, hd, h⟩ := bind_eq_ok.mp h
    cases hk : ts.getLast?.bind position? <;> simp only [hk, reduceCtorEq] at h
    case some k =>
      cases hc : ts[k.toNat - 1]? <;> simp only [hc, reduceCtorEq] at h
      case some c =>
        obtain ⟨t, hf, rfl⟩ := map_eq_ok.mp h
        exact ⟨t, rfl, _, d, c, hf, .projection hk hd hc⟩
  case composition =>
    cases ht : ts.head? <;> cases hu : ts.getLast? <;> simp only [ht, hu, reduceCtorEq] at h
    obtain ⟨d, c, t, he, h, hd, hc⟩ := exists_ends h
    exact ⟨t, he, _, d, c, h, .composition ht hu hd hc⟩
  case product =>
    cases ts <;> simp only [reduceCtorEq] at h
    obtain ⟨cs, hcs, h⟩ := bind_eq_ok.mp h
    obtain ⟨c, hc, h⟩ := bind_eq_ok.mp h
    obtain ⟨d, hd, h⟩ := bind_eq_ok.mp h
    obtain ⟨t, hf, rfl⟩ := map_eq_ok.mp h
    exact ⟨t, rfl, _, d, c, hf, .product hd hcs hc⟩
  case inclusion =>
    cases ts <;> simp only [reduceCtorEq] at h
    obtain ⟨d, c, t, he, h, hd, hc⟩ := exists_ends h
    exact ⟨t, he, _, d, c, h, .inclusion hd hc⟩
  case aggregation =>
    rcases ts with _ | ⟨v, _ | ⟨w, ts⟩⟩ <;> simp only [reduceCtorEq] at h
    obtain ⟨d, c, t, he, h, hd, hc⟩ := exists_ends h
    exact ⟨t, he, _, d, c, h, .aggregation hd hc⟩
  case inverse =>
    cases ts <;> simp only [reduceCtorEq] at h
    obtain ⟨d, c, t, he, h, hd, hc⟩ := exists_ends h
    exact ⟨t, he, _, d, c, h, .inverse hd hc⟩

theorem typeArg_eq_ok {i : Nat} {a : Term} : t.typeArg i = .ok a ↔
    ∃ n op ts ty, t.type? = some (.app n op ts ty) ∧ ts[i]? = some a := by
  simp only [typeArg]
  cases t.type?
  case none => simp
  case some ty =>
    cases ty <;> simp [args, bind, Except.bind]
    case app _ _ ts _ => cases ts[i]? <;> simp

namespace Formed

theorem whole (h : Formed K t) : t.equals t := by
  induction h
  case kind => simp
  case gap  => simp [equals]
  case position t h => cases t <;> simp_all [equals, position?]
  case app ih =>
    obtain ⟨_, _, _, rfl⟩ := apply_eq_ok.mp ‹_›
    exact equals_app ih

theorem mem_kind {h : KindHead} {ty d c s : Option Term} (hf : Formed K (.kind h ty d c s)) :
    K (.kind h ty d c s) := by
  cases hf
  case kind hk    => exact hk
  case position h => simp [position?] at h
  case app h      => simp [apply_eq_ok] at h

theorem mem_gap {h : GapHead} {ty : Option Term} (hf : Formed K (.gap h ty)) : K (.gap h ty) := by
  cases hf
  case gap hk     => exact hk
  case position h => simp [position?] at h
  case app h      => simp [apply_eq_ok] at h

theorem apply {ty : Option Term} (h : Formed K (.app n op ts ty)) :
    (∀ t ∈ ts, Formed K t) ∧ op.resultType (n + 1) ts = .ok ty := by
  cases h
  case position h => simp [position?] at h
  case app h ha =>
    obtain ⟨_, _, hr, he⟩ := apply_eq_ok.mp ha
    cases he
    exact ⟨h, hr⟩

theorem form (hr : op.role = .type) (hts : ∀ t ∈ ts, Formed K t) (h : op.form n ts = .ok t) :
    Formed K t :=
  .app hts (apply_of_form hr h)

theorem typeArg {i : Nat} {a : Term} (h : ∀ ty, t.type? = some ty → Formed K ty)
    (ha : t.typeArg i = .ok a) : Formed K a := by
  have ⟨_, _, _, _, hty, hm⟩ := typeArg_eq_ok.mp ha
  exact (h _ hty).apply.left a (mem_of_getElem? hm)

theorem endsOf {d c : Term} (hts : ∀ t ∈ ts, Formed K t)
    (hty : ∀ t ∈ ts, ∀ ty, t.type? = some ty → Formed K ty) (h : EndsOf op ts d c) :
    Formed K d ∧ Formed K c := by
  cases h
  case projection hd hc =>
    exact ⟨form rfl (fun t ht => hts t (mem_of_mem_dropLast ht)) hd,
      hts _ (mem_of_getElem? hc)⟩
  case composition ht hu hd hc =>
    exact ⟨typeArg (hty _ (mem_of_getLast? hu)) hd, typeArg (hty _ (mem_of_head? ht)) hc⟩
  case product hcs hd hc =>
    refine ⟨typeArg (hty _ (by simp)) hd, form rfl (fun c hc => ?_) hc⟩
    have ⟨t, ht, hc⟩ := exists_of_mem_right (mapM_eq_ok.mp hcs) hc
    exact typeArg (hty t ht) hc
  case inclusion hd hc   => exact ⟨form rfl hts hd, typeArg (hty _ (by simp)) hc⟩
  case inverse hd hc     => exact ⟨form rfl hts hd, typeArg (hty _ (by simp)) hc⟩
  case aggregation hd hc => exact ⟨typeArg (hty _ (by simp)) hd, typeArg (hty _ (by simp)) hc⟩

theorem type {ty : Term} (h : Formed K t) (hty : t.type? = some ty) : Formed K ty := by
  induction h generalizing ty
  case kind h _ => exact h ty hty
  case gap h _  => exact h ty hty
  case position t h => cases t <;> simp_all [position?, type?]
  case app n op ts t hts h ih =>
    obtain ⟨_, _, hr, rfl⟩ := apply_eq_ok.mp h
    simp only [type?] at hty
    obtain ⟨-, rfl⟩ | ⟨-, t, rfl, n, d, c, hf, he⟩ := resultType_cases hr
    case inl => simp at hty
    case inr =>
      obtain ⟨hd, hc⟩ := endsOf hts (fun t ht ty => ih t ht) he
      exact Option.some.inj hty ▸ form rfl (by simp [hd, hc]) hf

end Formed

def SameType (t u : Term) : Prop :=
  Option.Rel (fun a b => a.equals b) t.type? u.type?

theorem SameType.typeArg {i : Nat} {a b : Term} (h : SameType t u) (ht : t.typeArg i = .ok a)
    (hu : u.typeArg i = .ok b) : a.equals b := by
  have ⟨_, _, ts, _, hty, ha⟩ := typeArg_eq_ok.mp ht
  have ⟨_, _, us, _, huy, hb⟩ := typeArg_eq_ok.mp hu
  rw [SameType, hty, huy] at h
  cases h
  case some h =>
    simp only [equals, Bool.and_eq_true] at h
    have h := (forall₂_iff_get.mp (equalsList_iff.mp h.right)).right i
    obtain ⟨hi, rfl⟩ := List.getElem?_eq_some_iff.mp ha
    obtain ⟨hj, rfl⟩ := List.getElem?_eq_some_iff.mp hb
    exact h hi hj

theorem mapM_cod_equals {cs cs' : List Term}
    (h : Forall₂ (fun t u => t.equals u ∧ SameType t u) ts us) (hcs : ts.mapM cod = .ok cs)
    (hcs' : us.mapM cod = .ok cs') : equals.equalsList cs cs' := by
  induction h generalizing cs cs'
  case nil => simp_all [equals.equalsList]
  case cons h _ ih =>
    obtain ⟨c, _, hc, hcs, rfl⟩ := forall₂_cons_left_iff.mp (mapM_eq_ok.mp hcs)
    obtain ⟨c', _, hc', hcs', rfl⟩ := forall₂_cons_left_iff.mp (mapM_eq_ok.mp hcs')
    have hcc := h.right.typeArg hc hc'
    simp [equals.equalsList, hcc, ih (mapM_eq_ok.mpr ‹_›) (mapM_eq_ok.mpr ‹_›)]

theorem form_equals {i j : Nat} {d d' : Term} (h : equals.equalsList ts us)
    (hd : op.form i ts = .ok d) (hd' : op.form j us = .ok d') : d.equals d' := by
  obtain ⟨-, rfl⟩ := form_eq_ok.mp hd
  obtain ⟨-, rfl⟩ := form_eq_ok.mp hd'
  simp [equals, h]

theorem EndsOf.equals {d c d' c' : Term} (ht : EndsOf op ts d c) (hu : EndsOf op us d' c')
    (h : Forall₂ (fun t u => t.equals u ∧ SameType t u) ts us) :
    d.equals d' ∧ c.equals c' := by
  have he : Forall₂ (fun t u => t.equals u) ts us := h.imp fun _ _ h => h.left
  match ht, hu, h, he with
  | .projection hk hd hc, .projection hk' hd' hc', _, he =>
    refine ⟨form_equals (equalsList_iff.mpr (forall₂_dropLast he)) hd hd', ?_⟩
    have hkk := bind_getLast?_eq he fun _ _ => position?_eq
    rw [Option.some.inj (hk.symm.trans (hkk.trans hk'))] at hc
    exact rel_of_getElem? (R := fun t u => t.equals u) he hc hc'
  | .composition ht hu hd hc, .composition ht' hu' hd' hc', h, _ =>
    rw [head?_eq_getElem?] at ht ht'
    have hlast := rel_getLast? h
    rw [hu, hu'] at hlast
    cases hlast
    case some hlast =>
      exact ⟨hlast.right.typeArg hd hd', (rel_of_getElem? h ht ht').right.typeArg hc hc'⟩
  | .product hd hcs hc, .product hd' hcs' hc', h, _ =>
    have ⟨ht, _⟩ := forall₂_cons.mp h
    exact ⟨ht.right.typeArg hd hd', form_equals (mapM_cod_equals h hcs hcs') hc hc'⟩
  | .inclusion hd hc, .inclusion hd' hc', h, he | .inverse hd hc, .inverse hd' hc', h, he =>
    have ⟨ht, _⟩ := forall₂_cons.mp h
    exact ⟨form_equals (equalsList_iff.mpr he) hd hd', ht.right.typeArg hc hc'⟩
  | .aggregation hd hc, .aggregation hd' hc', h, _ =>
    have ⟨hv, h⟩ := forall₂_cons.mp h
    have ⟨hw, _⟩ := forall₂_cons.mp h
    exact ⟨hw.right.typeArg hd hd', hv.right.typeArg hc hc'⟩

theorem resultType_equals {ty ty' : Option Term}
    (h : Forall₂ (fun t u => t.equals u ∧ SameType t u) ts us)
    (ht : op.resultType n ts = .ok ty) (hu : op.resultType m us = .ok ty') :
    Option.Rel (fun a b => a.equals b) ty ty' := by
  obtain ⟨hr, rfl⟩ | ⟨hr, _, rfl, _, d, c, hf, he⟩ := resultType_cases ht <;>
    obtain ⟨hr', rfl⟩ | ⟨hr', _, rfl, _, d', c', hf', he'⟩ := resultType_cases hu
  case inl.inl => exact .none
  case inr.inr =>
    have ⟨hd, hc⟩ := he.equals he' h
    exact .some (form_equals (by simp [equals.equalsList, hd, hc]) hf hf')
  all_goals simp [hr] at hr'

theorem Coherent.of_equals (hK : Coherent K) (ht : Formed K t) (hu : Formed K u)
    (h : t.equals u) : t.role? = u.role? ∧ SameType t u := by
  induction ht generalizing u
  case kind hk _ _ =>
    cases u <;> simp only [equals, Bool.false_eq_true] at h
    case kind => exact hK _ _ hk hu.mem_kind (by simpa [equals] using h)
  case gap hg _ _ =>
    cases u <;> simp only [equals, Bool.false_eq_true] at h
    case gap => exact hK _ _ hg hu.mem_gap (by simpa [equals] using h)
  case position t hp =>
    have hp' := position?_eq h ▸ hp
    cases t <;> cases u <;> simp [position?] at hp hp' <;> exact ⟨rfl, .none⟩
  case app n op ts t hts ha ih =>
    obtain ⟨_, ty, hr, rfl⟩ := apply_eq_ok.mp ha
    cases u <;> simp only [equals, Bool.and_eq_true, beq_iff_eq, Bool.false_eq_true] at h
    case app m op' us ty' =>
      obtain ⟨rfl, h⟩ := h
      obtain ⟨hus, hr'⟩ := hu.apply
      refine ⟨rfl, resultType_equals ((forall₂_mem (equalsList_iff.mp h)).imp ?_) hr hr'⟩
      rintro t u ⟨hmt, hmu, he⟩
      exact ⟨he, (ih t hmt (hus u hmu) he).right⟩

-- Equal terms that are built from the kinds and gaps in `K`.
structure Twins (K : Term → Prop) (t u : Term) : Prop where
  left  : Formed K t
  right : Formed K u
  equal : t.equals u

namespace Twins

variable {d c d' c' : Term}

theorem forall₂ (ht : ∀ t ∈ ts, Formed K t) (hu : ∀ u ∈ us, Formed K u)
    (h : Forall₂ (fun t u => t.equals u) ts us) : Forall₂ (Twins K) ts us :=
  (forall₂_mem h).imp fun t u ⟨hmt, hmu, he⟩ => ⟨ht t hmt, hu u hmu, he⟩

theorem formed (h : Forall₂ (Twins K) ts us) :
    (∀ t ∈ ts, Formed K t) ∧ ∀ u ∈ us, Formed K u := by
  induction h
  case nil          => simp
  case cons ht _ ih => simpa [ht.left, ht.right] using ih

theorem type (hK : Coherent K) (h : Twins K t u) : Option.Rel (Twins K) t.type? u.type? := by
  have ht := (hK.of_equals h.left h.right h.equal).right
  rw [SameType] at ht
  generalize hty : t.type? = ty at ht
  generalize huy : u.type? = uy at ht
  cases ht
  case none    => exact .none
  case some he => exact .some ⟨h.left.type hty, h.right.type huy, he⟩

theorem args (h : Twins K t u) : Agree (Forall₂ (Twins K)) t.args u.args := by
  have he := h.equal
  cases t <;> cases u <;> simp [equals, position?] at he
  case app.app => exact .ok (forall₂ h.left.apply.left h.right.apply.left (equalsList_iff.mp he.right))
  all_goals exact .error

theorem equals_eq (hd : Twins K d d') (hc : Twins K c c') : d.equals c = d'.equals c' := by
  rw [Bool.eq_iff_iff]
  constructor
  · exact fun h => equals_trans (equals_trans (equals_symm hd.equal) h) hc.equal
  · exact fun h => equals_trans (equals_trans hd.equal h) (equals_symm hc.equal)

theorem indistinct (hK : Coherent K) : Indistinct (Twins K) where
  role h     := (hK.of_equals h.left h.right h.equal).left
  position h := position?_eq h.equal
  type h     := h.type hK
  args h     := h.args
  equals     := equals_eq
  built h _ ht hu := by
    have ⟨hts, hus⟩ := formed h
    exact ⟨.app hts ht, .app hus hu, by simp [equals, equalsList_iff.mpr (h.imp fun _ _ h => h.equal)]⟩

end Twins

def SameEnds (t u : Term) : Prop :=
  ∃ d c d' c', (t.dom = .ok d ∧ t.cod = .ok c) ∧ (u.dom = .ok d' ∧ u.cod = .ok c') ∧
    d.equals d' ∧ c.equals c'

theorem Twins.sameType (hK : Coherent K) (h : Twins K t u) : SameType t u :=
  (hK.of_equals h.left h.right h.equal).right

theorem apply_element (hr : op.role = .element) (h : apply n op ts = .ok t) :
    op.admits ts = .ok true ∧ ∃ m d c, EndsOf op ts d c ∧
      t = .app n op ts (some (.app m .functionalType [d, c] none)) := by
  obtain ⟨ha, ty, hty, rfl⟩ := apply_eq_ok.mp h
  obtain ⟨hr', -⟩ | ⟨-, _, rfl, m, d, c, hf, he⟩ := resultType_cases hty
  case inl => simp [hr] at hr'
  case inr =>
    obtain ⟨-, rfl⟩ := form_eq_ok.mp hf
    exact ⟨ha, m, d, c, he, rfl⟩

theorem SameType.sameEnds {a b : Term} (h : SameType a b) (hr : op.role = .element)
    (ha : apply m op ts = .ok a) (hb : apply n op us = .ok b) : SameEnds a b := by
  obtain ⟨-, _, d, c, -, rfl⟩ := apply_element hr ha
  obtain ⟨-, _, d', c', -, rfl⟩ := apply_element hr hb
  exact ⟨d, c, d', c', ⟨rfl, rfl⟩, ⟨rfl, rfl⟩, h.typeArg (i := 0) rfl rfl,
    h.typeArg (i := 1) rfl rfl⟩

theorem typing_respects_equality (K : Term → Prop) :
    (Equivalence fun t u : { t // Formed K t } => (t.1.equals u.1 : Prop)) ∧
    (Coherent K → ∀ op : Op, op ≠ .inclusion → op ≠ .selection → ∀ ts us : List Term,
      (∀ t ∈ ts, Formed K t) → (∀ u ∈ us, Formed K u) →
      List.Forall₂ (fun t u => t.equals u) ts us →
        (op.admits ts = .ok true ↔ op.admits us = .ok true) ∧
        ∀ m n, Agree (fun a b => a.equals b ∧ SameType a b ∧ (op.role = .element → SameEnds a b))
          (apply m op ts) (apply n op us)) := by
  refine ⟨⟨fun t => t.2.whole, equals_symm, equals_trans⟩, ?_⟩
  intro hK op ho ho' ts us ht hu h
  have htwins := Twins.forall₂ ht hu h
  have hR := Twins.indistinct hK
  have ha := agree_admits hR htwins op ho ho'
  refine ⟨ha.eq_ok_iff, fun m n => (agree_apply hR htwins ha).results.imp ?_⟩
  rintro a b ⟨ha, hb, hab⟩
  have hty := hab.sameType hK
  exact ⟨hab.equal, hty, fun hr => hty.sameEnds hr ha hb⟩

-- A variable that is read again and again, each time with a new term for its domain.
namespace Copies

def person (n : Nat) : Term :=
  .kind { serial := n, id := .given "persoon", cls := .objectType, name := "persoon", sort := .objectType }
    none none none none

def amount : Term :=
  .kind { serial := 0, id := .given "bedrag", cls := .phenomenon, name := "bedrag", sort := .phenomenon }
    none none none none

def income (n : Nat) : Term :=
  .kind { serial := n, id := .given "inkomen", cls := .variable, name := "inkomen", sort := .variable }
    (some (.app (n + 1) .functionalType [person (n + 2), amount] none)) (some (person (n + 2)))
    (some amount) none

inductive Copy : Term → Prop
  | amount : Copy amount
  | person (n : Nat) : Copy (person n)
  | income (n : Nat) : Copy (income n)

theorem formed_income (n : Nat) : Formed Copy (income n) := by
  have hp : Formed Copy (person (n + 2)) := .kind (.person _) (by simp)
  have ha : Formed Copy amount := .kind .amount (by simp)
  have hty : apply (n + 1) .functionalType [person (n + 2), amount]
    = .ok (.app (n + 1) .functionalType [person (n + 2), amount] none) := rfl
  exact .kind (.income n) fun _ h => Option.some.inj h ▸ .app (by simp [hp, ha]) hty

theorem coherent : Coherent Copy := by
  intro t u ht hu h
  cases ht <;> cases hu <;> simp [amount, person, income, equals] at h
  case amount.amount     => exact ⟨rfl, .none⟩
  case person.person m n => exact ⟨rfl, .none⟩
  case income.income m n => exact ⟨rfl, .some rfl⟩

theorem products_of_copies_agree : Op.product.admits [income 1, income 4] = .ok true ∧
    (Op.product.admits [income 1, income 4] = .ok true ↔
      Op.product.admits [income 7, income 10] = .ok true) ∧
    ∀ m n, Agree (fun a b => a.equals b ∧ SameType a b ∧ (Op.product.role = .element → SameEnds a b))
      (apply m .product [income 1, income 4]) (apply n .product [income 7, income 10]) := by
  refine ⟨rfl, (typing_respects_equality Copy).right coherent .product (by simp) (by simp) _ _ ?_ ?_ ?_⟩
  · simp [formed_income]
  · simp [formed_income]
  · exact .cons rfl (.cons rfl .nil)

end Copies
end Term
end Inquiry
