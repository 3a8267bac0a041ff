import Mathlib
import Inquiry.Proofs.Term.Typing

/-!
Which conditions an inclusion or a selection takes. The arguments are to stand in pairs with equal
codomains. What is compared with its neighbour is a term where it stands for the first time, so a pair
that begins with a term that stood before is not looked at.
-/

namespace Inquiry

open List

-- A check that decides a property of each entry decides what the property of all of them comes to.
theorem allM_decides {f : α → Except ε Bool} {P : α → Prop} {Q : Prop} {as : List α}
    (h : ∀ a ∈ as, ∃ b, f a = .ok b ∧ (b ↔ P a)) (hq : (∀ a ∈ as, P a) ↔ Q) :
    ∃ b, as.allM f = .ok b ∧ (b ↔ Q) := by
  rw [← hq]
  clear hq
  induction as
  case nil => exact ⟨true, rfl, by simp⟩
  case cons a as ih =>
    have ⟨⟨b, hb, hp⟩, h⟩ := forall_mem_cons.mp h
    have ⟨b', hb', hp'⟩ := ih h
    cases b
    case false => exact ⟨false, by simp [List.allM, hb], by simp_all⟩
    case true  => exact ⟨b', by simp [List.allM, hb, hb'], by simp_all⟩

namespace Term

def SameDomain (t u : Term) : Prop :=
  ∃ d e, t.dom = .ok d ∧ u.dom = .ok e ∧ d.equals e

def SameCodomain (t u : Term) : Prop :=
  ∃ d e, t.cod = .ok d ∧ u.cod = .ok e ∧ d.equals e

-- In the pairs at the places that are looked at, both elements have one codomain.
def Paired (looked : Nat → Prop) (ts : List Term) : Prop :=
  ∀ i t u, looked i → ts[2 * i]? = some t → ts[2 * i + 1]? = some u → SameCodomain t u

-- Elements in pairs, all with one domain.
structure PairsFit (looked : Nat → Prop) (ts : List Term) : Prop where
  even      : ts.length % 2 = 0
  nonempty  : 2 ≤ ts.length
  domains   : ∀ t ∈ ts, ∀ u ∈ ts, SameDomain t u
  codomains : Paired looked ts

-- The pair at place `i` begins with a term that did not stand before.
def BeginsNew (ts : List Term) (i : Nat) : Prop :=
  ∀ j < 2 * i, ∀ t u, ts[2 * i]? = some t → ts[j]? = some u → ¬u == t

variable {n : Nat} {op : Op} {t u : Term} {ts : List Term}

theorem beq_self (t : Term) : t == t := by
  change t.same t
  cases t <;> simp [same, serial?]

theorem sameDomain_iff {d d' : Term} (ht : t.dom = .ok d) (hu : u.dom = .ok d') :
    SameDomain t u ↔ d.equals d' := by
  simp [SameDomain, ht, hu]

theorem sameCodomain_iff {c c' : Term} (ht : t.cod = .ok c) (hu : u.cod = .ok c') :
    SameCodomain t u ↔ c.equals c' := by
  simp [SameCodomain, ht, hu]

theorem Paired.imp {looked looked' : Nat → Prop} (h : Paired looked ts)
    (hl : ∀ i, looked' i → looked i) : Paired looked' ts :=
  fun i t u hi => h i t u (hl i hi)

theorem Paired.exists_cod (h : Paired (fun _ => True) ts) (he : ts.length % 2 = 0) (ht : t ∈ ts) :
    ∃ c, t.cod = .ok c := by
  obtain ⟨j, hj, rfl⟩ := mem_iff_getElem.mp ht
  have ⟨i, hi⟩ := j.even_or_odd'
  cases hi
  case inl hi =>
    subst hi
    have ⟨c, _, hc, _⟩ := h i ts[2 * i] ts[2 * i + 1] trivial (by simp) (by simp)
    exact ⟨c, hc⟩
  case inr hi =>
    subst hi
    have ⟨_, c, _, hc, _⟩ := h i ts[2 * i] ts[2 * i + 1] trivial (by simp) (by simp)
    exact ⟨c, hc⟩

theorem commonDomain_decides (h : ∀ t ∈ ts, ∃ d c, t.Goes d c) :
    ∃ b, commonDomain ts = .ok b ∧ (b ↔ ∀ t ∈ ts, ∀ u ∈ ts, SameDomain t u) := by
  cases ts
  case nil => exact ⟨true, rfl, by simp⟩
  case cons t ts =>
    have ⟨d, c, ht⟩ := h t (by simp)
    simp only [commonDomain, ht.dom, ok_bind]
    refine allM_decides (P := fun u => SameDomain u t) (fun u hu => ?_)
      ⟨fun hd u hu v hv => ?_, fun hd u hu => hd u hu t (by simp)⟩
    · have ⟨d', c', hu⟩ := h u hu
      exact ⟨d'.equals d, by simp [hu.hasRole, hu.dom], (sameDomain_iff hu.dom ht.dom).symm⟩
    · have ⟨d₁, c₁, hu'⟩ := h u hu
      have ⟨d₂, c₂, hv'⟩ := h v hv
      have h₁ := (sameDomain_iff hu'.dom ht.dom).mp (hd u hu)
      have h₂ := (sameDomain_iff hv'.dom ht.dom).mp (hd v hv)
      exact (sameDomain_iff hu'.dom hv'.dom).mpr (equals_trans h₁ (equals_symm h₂))

theorem findIdx_lt (ht : t ∈ ts) : ts.findIdx (· == t) < ts.length :=
  findIdx_lt_length.mpr ⟨t, ht, beq_self t⟩

theorem BeginsNew.findIdx {i : Nat} (h : BeginsNew ts i) (ht : ts[2 * i]? = some t) :
    ts.findIdx (· == t) = 2 * i := by
  have ⟨hi, ht'⟩ := List.getElem?_eq_some_iff.mp ht
  refine (List.findIdx_eq hi).mpr ⟨by simp [ht'], fun j hj => ?_⟩
  simpa using h j hj t ts[j] ht (by simp)

theorem beginsNew_of_findIdx {i : Nat} (ht : ts[2 * i]? = some t) (h : ts.findIdx (· == t) = 2 * i) :
    BeginsNew ts i := by
  have ⟨hi, _⟩ := List.getElem?_eq_some_iff.mp ht
  intro j hj t' u ht' hu
  have ⟨hj', hu⟩ := List.getElem?_eq_some_iff.mp hu
  have hne := ((List.findIdx_eq hi).mp h).right j hj
  simp_all

-- One object is one term.
def Identified (ts : List Term) : Prop :=
  ∀ t ∈ ts, ∀ u ∈ ts, t == u → t = u

-- What is looked at is the neighbour of the place where a term stands first, if that place is even.
theorem pairedCodomains_decides (he : ts.length % 2 = 0) (h : ∀ t ∈ ts, ∃ c, t.cod = .ok c)
    (hs : Identified ts) : ∃ b, pairedCodomains ts = .ok b ∧ (b ↔ Paired (BeginsNew ts) ts) := by
  refine allM_decides (P := fun t => ∀ i u, ts.findIdx (· == t) = 2 * i →
    ts[2 * i + 1]? = some u → SameCodomain t u) (fun t ht => ?_)
    ⟨fun hp i t u hn ht hu => ?_, fun hp t ht i u hi hu => ?_⟩
  · have hlt := findIdx_lt ht
    have ⟨c, hc⟩ := h t ht
    have ⟨i, hi⟩ := (ts.findIdx (· == t)).even_or_odd'
    cases hi
    case inl hi =>
      have ⟨u, hu⟩ : ∃ u, ts[2 * i + 1]? = some u := ⟨ts[2 * i + 1], by simp⟩
      have ⟨c', hc'⟩ := h u (mem_of_getElem? hu)
      refine ⟨c.equals c', by simp [hi, hu, hc, hc'], ?_⟩
      rw [← sameCodomain_iff hc hc']
      refine ⟨fun hcc j v hj hv => ?_, fun hcc => hcc i u hi hu⟩
      obtain rfl : i = j := by omega
      obtain rfl : u = v := by simpa [hu] using hv
      exact hcc
    case inr hi =>
      have hodd : (2 * i + 1) % 2 = 1 := by omega
      refine ⟨true, by simp [hi, hodd], ?_⟩
      simp only [true_iff]
      intro j v hj
      omega
  · exact hp t (mem_of_getElem? ht) i u (hn.findIdx ht) hu
  · have hlt := findIdx_lt ht
    have hfirst := findIdx_getElem (p := (· == t)) (w := hlt)
    have heq := hs _ (getElem_mem hlt) t ht hfirst
    have ht' : ts[2 * i]? = some t := by simp [← hi, hlt, heq]
    exact hp i t u (beginsNew_of_findIdx ht' hi) ht' hu

theorem admits_conditions (ho : op = .inclusion ∨ op = .selection) :
    op.admits ts = if ts.length < 2 || ts.length % 2 != 0 then .ok false
      else do if ← commonDomain ts then pairedCodomains ts else return false := by
  cases ho <;> subst op <;> rfl

theorem admits_decides (ho : op = .inclusion ∨ op = .selection) (h : ∀ t ∈ ts, ∃ d c, t.Goes d c)
    (hs : Identified ts) : ∃ b, op.admits ts = .ok b ∧ (b ↔ PairsFit (BeginsNew ts) ts) := by
  by_cases hl : 2 ≤ ts.length ∧ ts.length % 2 = 0
  case pos =>
    have ⟨hn, he⟩ := hl
    have ⟨b, hb, hd⟩ := commonDomain_decides h
    have hcod : ∀ t ∈ ts, ∃ c, t.cod = .ok c := fun t ht => have ⟨_, c, ht⟩ := h t ht; ⟨c, ht.cod⟩
    have ⟨b', hb', hc⟩ := pairedCodomains_decides he hcod hs
    refine ⟨b && b', ?_, ?_⟩
    · cases b <;> simp [admits_conditions ho, Nat.not_lt.mpr hn, he, hb, hb']
    · rw [Bool.and_eq_true, hd, hc]
      exact ⟨fun ⟨hd, hc⟩ => ⟨he, hn, hd, hc⟩, fun hp => ⟨hp.domains, hp.codomains⟩⟩
  case neg =>
    have hl' : (ts.length < 2 || ts.length % 2 != 0) = true := by grind
    refine ⟨false, ?_, by simp, fun hp => absurd ⟨hp.nonempty, hp.even⟩ hl⟩
    rw [admits_conditions ho, if_pos hl']

-- Nothing else can go wrong: what is admitted has a type.
theorem apply_of_admits (ho : op = .inclusion ∨ op = .selection) (h : ∀ t ∈ ts, ∃ d c, t.Goes d c)
    (ha : op.admits ts = .ok true) : ∃ t, apply n op ts = .ok t := by
  cases ho <;> subst op
  case inr => exact ⟨_, by simp [apply, ha, Op.resultType]; rfl⟩
  case inl =>
    cases ts
    case nil => simp [Op.admits] at ha
    case cons t ts =>
      obtain ⟨d, c, ht⟩ := h t (by simp)
      have hw : ∀ u ∈ t :: ts, u.equals u := by
        intro u hu
        obtain ⟨_, _, hu⟩ := h u hu
        exact hu.whole
      have hp : Op.selection.form (n + 1) (t :: ts) = .ok (.app (n + 1) .selection (t :: ts) none) := by
        have ha' : Op.selection.admits (t :: ts) = .ok true := ha
        simp [Op.form, ha']
      have hpart : (app (n + 1) .selection (t :: ts) none).IsType := isType_app rfl hw
      have hty := Op.form_functionalType (n := n + 1 + 1) hpart ht.source
      exact ⟨_, by simp [apply, ha, Op.resultType, hp, ht.dom, hty]; rfl⟩

-- The terms are accepted exactly if every pair that is looked at fits. Terms that are all paired
-- rightly are accepted; the converse holds if no pair begins with a term that stood before.
theorem accepts_iff_new_pairs_fit (n : Nat) (ho : op = .inclusion ∨ op = .selection)
    (h : ∀ t ∈ ts, ∃ d c, t.Goes d c) (hs : Identified ts) :
    ((∃ t, apply n op ts = .ok t) ↔ PairsFit (BeginsNew ts) ts) ∧
    (apply n op ts = .error (.invalidApplication op ts) ↔ ¬PairsFit (BeginsNew ts) ts) ∧
    (PairsFit (fun _ => True) ts → ∃ t, apply n op ts = .ok t) ∧
    ((∀ i, BeginsNew ts i) → ((∃ t, apply n op ts = .ok t) ↔ PairsFit (fun _ => True) ts)) := by
  have ⟨b, hb, hp⟩ := admits_decides ho h hs
  have hok : (∃ t, apply n op ts = .ok t) ↔ PairsFit (BeginsNew ts) ts := by
    rw [← hp]
    refine ⟨fun ⟨t, ht⟩ => ?_, fun hf => apply_of_admits ho h (by rw [hb, hf])⟩
    by_contra hf
    simp [apply, hb, hf] at ht
  refine ⟨hok, ?_, fun hf => ?_, fun hn => hok.trans ⟨fun hf => ?_, fun hf => ?_⟩⟩
  · refine ⟨fun he hf => ?_, fun hf => ?_⟩
    · have ⟨t, ht⟩ := hok.mpr hf
      simp [ht] at he
    · simp [apply, hb, mt hp.mp hf]
  · exact hok.mpr ⟨hf.even, hf.nonempty, hf.domains, hf.codomains.imp fun _ _ => trivial⟩
  · exact ⟨hf.even, hf.nonempty, hf.domains, hf.codomains.imp fun i _ => hn i⟩
  · exact ⟨hf.even, hf.nonempty, hf.domains, hf.codomains.imp fun _ _ => trivial⟩

namespace Repeated

def person : Term :=
  .kind { serial := 0, id := .given "persoon", cls := .objectType, name := "persoon", sort := .objectType }
    none none none none

def measured (n : Nat) (name : String) : Term :=
  .kind { serial := n, id := .given name, cls := .phenomenon, name, sort := .phenomenon }
    none none none none

def trait (n : Nat) (name : String) (c : Term) : Term :=
  .kind { serial := n, id := .given name, cls := .variable, name, sort := .variable }
    (some (.app (n + 1) .functionalType [person, c] none)) (some person) (some c) none

def born : Term := trait 3 "geboortedatum" (measured 1 "datum")
def died : Term := trait 5 "sterfdatum" (measured 1 "datum")
def income : Term := trait 7 "inkomen" (measured 2 "bedrag")

theorem goes (n m : Nat) (name name' : String) :
    (trait n name (measured m name')).Goes person (measured m name') where
  role   := rfl
  whole  := by simp [trait]
  dom    := rfl
  cod    := rfl
  source := ⟨rfl, rfl⟩
  target := ⟨rfl, by simp [measured]⟩

theorem forall_goes : ∀ t ∈ [born, died, died, income], ∃ d c, t.Goes d c := by
  simp only [forall_mem_cons]
  exact ⟨⟨_, _, goes ..⟩, ⟨_, _, goes ..⟩, ⟨_, _, goes ..⟩, ⟨_, _, goes ..⟩, by simp⟩

theorem domains : ∀ t ∈ [born, died, died, income], ∀ u ∈ [born, died, died, income],
    SameDomain t u := by
  have h : ∀ t ∈ [born, died, died, income], t.dom = .ok person := by
    simp only [forall_mem_cons]
    exact ⟨rfl, rfl, rfl, rfl, by simp⟩
  exact fun t ht u hu => ⟨_, _, h t ht, h u hu, rfl⟩

-- Only the dates are looked at.
theorem pairsFit_new : PairsFit (BeginsNew [born, died, died, income]) [born, died, died, income] where
  even      := rfl
  nonempty  := by simp
  domains   := domains
  codomains i t u hn ht hu := by
    match i with
    | 0 =>
      obtain rfl : born = t := by simpa using ht
      obtain rfl : died = u := by simpa using hu
      exact ⟨_, _, rfl, rfl, rfl⟩
    | 1     => exact absurd (beq_self died) (hn 1 (by simp) died died rfl rfl)
    | i + 2 => simp [Nat.mul_add] at ht

-- A date and an amount are compared, behind a date that stood before.
theorem misfit_accepted : Identified [born, died, died, income] ∧
    (∃ t, apply 9 .inclusion [born, died, died, income] = .ok t) ∧
    ¬PairsFit (fun _ => True) [born, died, died, income] := by
  have hs : Identified [born, died, died, income] := by
    simp only [Identified, List.forall_mem_cons]
    simp [born, died, income, trait, BEq.beq, same, serial?]
  refine ⟨hs, (accepts_iff_new_pairs_fit 9 (.inl rfl) forall_goes hs).left.mpr pairsFit_new, fun hf => ?_⟩
  obtain ⟨_, _, hd, hc, he⟩ := hf.codomains 1 died income trivial rfl rfl
  cases hd
  cases hc
  simp [measured, equals] at he

end Repeated
end Term
end Inquiry
