import Mathlib
import Inquiry.Proofs.Request.Extending
import Inquiry.Proofs.Request.Rows
import Inquiry.Proofs.Request.Total
import Inquiry.Proofs.Session.Legible

/-!
The dimensions of a request. They are the words in rows of dimensions that the answer can be broken
down by. The place that is noted with a dimension is its own or that of the relation that leads to
it, as long as no unknown word is in between.
-/

namespace Inquiry

open List

namespace SessionM

variable {I : Session → Prop} {P : α → Prop} {f : α → SessionM Bool} {s : Session}

theorem exists_filterM {as : List α} (hs : I s) (h : ∀ a ∈ as, ∀ s, I s →
    ∃ b s', (f a).Gives s b s' ∧ I s' ∧ (b = true ↔ P a)) :
    ∃ bs s', (as.filterM f).Gives s bs s' ∧ I s' ∧ ∀ a, a ∈ bs ↔ a ∈ as ∧ P a := by
  have aux (acc : List α) : ∃ bs s', (as.filterAuxM f acc).Gives s (bs ++ acc) s' ∧ I s' ∧
      ∀ a, a ∈ bs ↔ a ∈ as ∧ P a := by
    induction as generalizing s acc
    case nil => exact ⟨[], s, gives_done, hs, by simp⟩
    case cons a as ih =>
      have ⟨ha, has⟩ := forall_mem_cons.mp h
      have ⟨b, s₁, hb, hs₁, hp⟩ := ha s hs
      have ⟨bs, s₂, hbs, hs₂, hmem⟩ := ih hs₁ has (if b then a :: acc else acc)
      cases b
      case true =>
        have hp : P a := hp.mp rfl
        refine ⟨bs ++ [a], s₂, hb.bind (by simpa using hbs), hs₂, fun x => ?_⟩
        simp only [mem_append, hmem, mem_cons]
        grind
      case false =>
        have hp : ¬P a := fun h => by simpa using hp.mpr h
        refine ⟨bs, s₂, hb.bind (by simpa using hbs), hs₂, fun x => ?_⟩
        simp only [hmem, mem_cons]
        grind
  have ⟨bs, s', hbs, hs', hmem⟩ := aux []
  refine ⟨bs.reverse, s', hbs.bind (gives_pure.mpr ⟨by simp, rfl⟩), hs', by simpa using hmem⟩

theorem Gives.filterM_sublist {as bs : List α} {s' : Session} (h : (as.filterM f).Gives s bs s') :
    bs.Sublist as := by
  have aux {as acc bs : List α} {s s' : Session} (h : (as.filterAuxM f acc).Gives s bs s') :
      bs.reverse.Sublist (acc.reverse ++ as) := by
    induction as generalizing s acc
    case nil =>
      obtain ⟨rfl, _⟩ := gives_pure.mp h
      simp
    case cons a as ih =>
      obtain ⟨b, s₁, _, h⟩ := gives_bind.mp h
      cases b
      case true  => simpa using ih h
      case false => exact (ih h).trans (by simp)
  obtain ⟨bs', hbs, rfl⟩ := gives_bind_pure.mp h
  simpa using aux hbs

end SessionM

def Graph.LeadsTo (g : Graph) (t u : Term) : Prop :=
  u ≠ .nothing ∧ g.Reaches t.printed u.printed

namespace Request

open Keyword SessionM

variable {r : Request} {ks : List String} {g : Graph} {m : Model} {s s₀ : Session}
  {pivot target c : Term} {k v : Nat}

-- A word that is read as an object type stands for one, and a word that is read as a relation or as a
-- category stands for an element that ends in a type.
structure Suits (k : String) (m : Meaning) : Prop where
  objectType : k = objectType → m.asTerm.isObjectType
  element    : k ∈ [relation, category] → ∃ c, m.asTerm.goal = .ok c ∧ c.IsType

theorem suits_objectType {t : Term} (h : t.isObjectType) : Suits objectType (.term t) :=
  ⟨fun _ => h, fun h => absurd h (by decide)⟩

theorem suits_other {w : String} {n : Meaning} (h : w ∉ [objectType, relation, category]) :
    Suits w n where
  objectType hw := absurd (by simp [hw]) h
  element hw    := absurd (mem_cons_of_mem _ hw) h

def Fitting (r : Request) : Prop :=
  Forall₂ Suits r.keywords r.meanings

-- The dimension at place `k` breaks down by `c`.
def BreaksDownBy (r : Request) (k : Nat) (c : Term) : Prop :=
  ∃ m, r.meanings[k]? = some m ∧
    if r.keywords[k]? = some objectType then m.asTerm = c else m.asTerm.goal = .ok c

-- The answer can be broken down by the dimension at place `k`: it is not about the pivot or the
-- target, and does not lead to the target.
def Wanted (r : Request) (g : Graph) (pivot target : Term) (k : Nat) : Prop :=
  ∃ c, r.BreaksDownBy k c ∧ ¬c.equals pivot ∧ ¬c.equals target ∧ ¬g.LeadsTo c target

theorem BreaksDownBy.unique {c' : Term} (h : r.BreaksDownBy k c) (h' : r.BreaksDownBy k c') :
    c = c' := by
  obtain ⟨m, hm, h⟩ := h
  obtain ⟨m', hm', h'⟩ := h'
  obtain rfl : m = m' := Option.some.inj (hm.symm.trans hm')
  split at h <;> simp_all

theorem Fitting.suits {w : String} (h : r.Fitting) (hk : r.keywords[k]? = some w) :
    ∃ m, r.meanings[k]? = some m ∧ Suits w m := by
  obtain ⟨hl, h⟩ := forall₂_iff_get.mp h
  obtain ⟨hlt, rfl⟩ := List.getElem?_eq_some_iff.mp hk
  exact ⟨r.meanings[k], getElem?_eq_getElem (hl ▸ hlt), h k hlt (hl ▸ hlt)⟩

theorem Noted.eq_of_relation (h : Noted ks k v) (hk : ks[k]? = some relation) : v = k := by
  obtain ⟨⟨hl, _⟩, _⟩ | ⟨_, rfl⟩ := h
  · rw [IsLeadable, hk] at hl
    exact absurd hl (by decide)
  · rfl

theorem exists_dimensionEnd (hr : r.Fitting) (hk : IsDimension r.keywords k)
    (hv : Noted r.keywords k v) :
    ∃ d, r.dimensionEnd k v = .ok d ∧ r.BreaksDownBy k d.asTerm ∧ d.asTerm.IsType := by
  obtain ⟨w, hw, hk⟩ := hk
  obtain ⟨m, hm, hs⟩ := hr.suits hk
  have hkw : r.keyword k = .ok w := Sequence.get_natCast hk
  have hmk : r.meaning k = .ok m := Sequence.get_natCast hm
  simp only [mem_cons, not_mem_nil, or_false] at hw
  obtain rfl | rfl | rfl := hw
  case inl =>
    have ht := Term.typeKind_of_isObjectType (hs.objectType rfl)
    refine ⟨m, ?_, ⟨m, hm, by simp [hk]⟩, ht.isType⟩
    simp [dimensionEnd, hkw, hmk, objectType, category, relation]
  case inr.inl =>
    obtain ⟨c, hc, ht⟩ := hs.element (by simp)
    refine ⟨.term c, ?_, ⟨m, hm, by simpa [hk, category, objectType, Meaning.asTerm] using hc⟩, ht⟩
    simp [dimensionEnd, hkw, hmk, Meaning.goal, hc]
  case inr.inr =>
    obtain ⟨c, hc, ht⟩ := hs.element (by simp)
    obtain rfl := hv.eq_of_relation hk
    refine ⟨.term c, ?_, ⟨m, hm, by simpa [hk, relation, objectType, Meaning.asTerm] using hc⟩, ht⟩
    simp [dimensionEnd, hkw, hmk, Meaning.goal, hc, relation, category]

theorem reaches_to_nothing {t : Term} {b : Bool} {s' : Session}
    (h : (reaches t .nothing).Gives s b s') : b = false := by
  have hp : paths t .nothing = pure [] := by cases t <;> rfl
  obtain ⟨ps, s₁, hps, h⟩ := gives_bind.mp h
  rw [hp] at hps
  obtain ⟨rfl, _⟩ := gives_pure.mp hps
  obtain ⟨rfl, _⟩ := gives_pure.mp h
  rfl

theorem exists_reaches (hg : g.Legible) (hs : s.Legible g) {t : Term} (ht : t.IsType) (u : Term) :
    ∃ b s', (reaches t u).Gives s b s' ∧ s'.Legible g ∧ (b = true ↔ g.LeadsTo t u) := by
  have ⟨b, s', hb, hs'⟩ := reaches_gives (tellsPaths_legible hg) hs t u
  have hn : t ≠ .nothing := by
    rintro rfl
    simpa [Term.role?] using ht.role
  refine ⟨b, s', hb, hs', ?_⟩
  by_cases hu : u = .nothing
  case pos =>
    subst hu
    simp [reaches_to_nothing hb, Graph.LeadsTo]
  case neg =>
    rw [reaches_iff hn hu hb, hs.graph, Graph.LeadsTo, and_iff_right hu]

theorem exists_wanted (hg : g.Legible) (hs : s.Legible g) (pivot target : Term) {d : Meaning}
    (hd : r.dimensionEnd k v = .ok d) (hb : r.BreaksDownBy k d.asTerm) (ht : d.asTerm.IsType) :
    ∃ b s', Gives (do
        let d ← ofExcept (r.dimensionEnd k v)
        if ← ofExcept (d.isEqualTo pivot) then return false
        if ← ofExcept (d.isEqualTo target) then return false
        return !(← reaches d.asTerm target)) s b s' ∧ s'.Legible g ∧
      (b = true ↔ r.Wanted g pivot target k) := by
  have wanted : r.Wanted g pivot target k ↔
      ¬d.asTerm.equals pivot ∧ ¬d.asTerm.equals target ∧ ¬g.LeadsTo d.asTerm target := by
    constructor
    · rintro ⟨c, hc, h⟩
      exact hb.unique hc ▸ h
    · exact fun h => ⟨_, hb, h⟩
  have ⟨b, s', hr, hs', hbt⟩ := exists_reaches hg hs ht target
  rw [wanted, ← hbt]
  have equal (u : Term) : d.isEqualTo u = .ok (d.asTerm.equals u) := ht.isEqualTo u
  cases hp : d.asTerm.equals pivot
  case true =>
    refine ⟨false, s, ?_, hs, by simp⟩
    refine Gives.ofExcept_bind hd ?_
    exact Gives.ofExcept_bind (hp ▸ equal pivot) gives_done
  case false =>
    cases hq : d.asTerm.equals target
    case true =>
      refine ⟨false, s, ?_, hs, by simp⟩
      refine Gives.ofExcept_bind hd ?_
      refine Gives.ofExcept_bind (hp ▸ equal pivot) ?_
      exact Gives.ofExcept_bind (hq ▸ equal target) gives_done
    case false =>
      refine ⟨!b, s', ?_, hs', by simp⟩
      refine Gives.ofExcept_bind hd ?_
      refine Gives.ofExcept_bind (hp ▸ equal pivot) ?_
      refine Gives.ofExcept_bind (hq ▸ equal target) ?_
      exact Gives.bind hr gives_done

-- The dimensions are found, and they are the wanted ones among what is noted in the rows.
theorem exists_dimensions (hg : g.Legible) (hs : s.Legible g) (hr : r.Fitting)
    (pivot target : Term) : ∃ ds s', (r.dimensions pivot target).Gives s ds s' ∧
      ∀ k v, (k, v) ∈ ds ↔ (k, v) ∈ rows r.keywords 0 ∧ r.Wanted g pivot target k := by
  have found : ∃ ds s', (r.dimensions pivot target).Gives s ds s' ∧ s'.Legible g ∧
      ∀ d, d ∈ ds ↔ d ∈ rows r.keywords 0 ∧ r.Wanted g pivot target d.1 := by
    refine exists_filterM hs fun (k, v) hd s hs => ?_
    have ⟨_, hdim, _, hnote⟩ := mem_rows_iff.mp hd
    have ⟨e, he, hb, ht⟩ := exists_dimensionEnd hr hdim hnote
    exact exists_wanted hg hs pivot target he hb ht
  have ⟨ds, s', hds, _, hmem⟩ := found
  exact ⟨ds, s', hds, fun k v => hmem (k, v)⟩

theorem dimensions_sorted {ds : Assoc Nat Nat} {s' : Session}
    (h : (r.dimensions pivot target).Gives s ds s') : ds.Pairwise fun d d' => d.1 < d'.1 :=
  (rows_sorted r.keywords 0).sublist h.filterM_sublist

-- Wherever a session has come to, the dimensions of a request are the announced words that the
-- answer can be broken down by, and are noted with their own place or that of the relation that leads
-- to them. Only where a word that is led to is followed by an unknown word in one of the next two
-- places, it is noted with a place that is neither.
theorem dimensions_point_iff (hm : m.Legible) (h₀ : Session.start m = .ok s₀) (h : Reached s₀ s)
    (hr : r.Fitting) (pivot target : Term) :
    ∃ ds s', (r.dimensions pivot target).Gives s ds s' ∧ (ds.Pairwise fun d d' => d.1 < d'.1) ∧
      (∀ k, (∃ v, (k, v) ∈ ds) ↔ AnnouncedFrom r.keywords 0 k ∧ IsDimension r.keywords k ∧
        ¬PassedFrom r.keywords 0 k ∧ r.Wanted m.graph pivot target k) ∧
      ∀ k v, (k, v) ∈ ds → ((v = k ∨ LedBy r.keywords k v) ↔
        ¬(Led r.keywords k ∧ Gap r.keywords k)) := by
  have ⟨ds, s', hds, hmem⟩ := exists_dimensions hm.graph (h.legible hm h₀) hr pivot target
  refine ⟨ds, s', hds, dimensions_sorted hds, fun k => ?_, fun k v hk => ?_⟩
  · simp only [hmem, mem_rows_iff]
    constructor
    · rintro ⟨v, ⟨ha, hd, hp, _⟩, hw⟩
      exact ⟨ha, hd, hp, hw⟩
    · rintro ⟨ha, hd, hp, hw⟩
      have ⟨v, hv⟩ := exists_noted r.keywords k
      exact ⟨v, ⟨ha, hd, hp, hv⟩, hw⟩
  · have ⟨_, _, _, hnote⟩ := mem_rows_iff.mp ((hmem k v).mp hk).left
    exact hnote.points_iff

namespace Employment

open Path.Dwellings (type element)
open SessionM.Dwelling (works)

def job      := type 1 .objectType "baan"
def person   := type 2 .objectType "persoon"
def firm     := type 3 .objectType "bedrijf"
def employer := element 4 .objectTypeRelation "werkgever" job firm

-- Per person of an employer, with an unknown word before the preposition.
def request : Request where
  tokens   := ["per", "persoon", "dus", "van", "werkgever"]
  meanings := [.nothing, .term person, .nothing, .nothing, .term employer]
  keywords := [per, objectType, unknown, prep, relation]

theorem works_legible : works.Legible :=
  ⟨⟨by decide, by decide, by decide, by decide⟩, by simp [works]⟩

theorem suits_employer : Suits relation (.term employer) :=
  ⟨fun h => absurd h (by decide), fun _ =>
    ⟨firm, rfl, Term.TypeKind.isType ⟨_, _, _, _, _, rfl, rfl⟩⟩⟩

theorem request_fitting : request.Fitting :=
  .cons (suits_other (by decide)) <| .cons (suits_objectType rfl) <| .cons (suits_other (by decide)) <|
    .cons (suits_other (by decide)) <| .cons suits_employer .nil

theorem not_leadsTo : ¬works.graph.LeadsTo person firm := by
  rintro ⟨_, h⟩
  exact h (by decide)

theorem announced : AnnouncedFrom request.keywords 0 1 := by
  refine ⟨0, le_rfl, announces_iff.mpr (.inl rfl), by decide, fun x h h' => ?_⟩
  obtain rfl : x = 1 := by omega
  exact ⟨objectType, by decide, rfl⟩

theorem not_passed : ¬PassedFrom request.keywords 0 1 := by
  rintro ⟨_, _, h, _⟩
  omega

theorem ledBy : LedBy request.keywords 1 4 := by
  refine ⟨3, by decide, fun x h h' => ?_, rfl, by decide, fun x h h' => ?_, rfl⟩
  · obtain rfl : x = 2 := by omega
    rfl
  · omega

theorem wanted : request.Wanted works.graph firm firm 1 := by
  refine ⟨person, ⟨.term person, rfl, ?_⟩, by decide, by decide, not_leadsTo⟩
  rfl

-- The word before the relation is noted in its place.
theorem persons_not_led : works.Legible ∧ request.Fitting ∧ ∃ s₀, Session.start works = .ok s₀ ∧
    Reached s₀ s₀ ∧ ∃ ds s', (request.dimensions firm firm).Gives s₀ ds s' ∧
      ∃ v, (1, v) ∈ ds ∧ LedBy request.keywords 1 4 ∧ ¬(v = 1 ∨ LedBy request.keywords 1 v) := by
  have ⟨s₀, h₀⟩ := start_of_fit SessionM.Dwelling.works_fit rfl
  have ⟨ds, s', hds, _, hkeys, hvalues⟩ :=
    dimensions_point_iff works_legible h₀ .start request_fitting firm firm
  have ⟨v, hv⟩ := (hkeys 1).mpr ⟨announced, ⟨objectType, by simp, rfl⟩, not_passed, wanted⟩
  refine ⟨works_legible, request_fitting, s₀, h₀, .start, ds, s', hds, v, hv, ledBy, fun h => ?_⟩
  exact (hvalues 1 v hv).mp h ⟨⟨.inl rfl, 4, ledBy⟩, .inl rfl⟩

end Employment

end Request
end Inquiry
