import Mathlib
import Inquiry.Proofs.Session.Identity
import Inquiry.Words.Keywording

/-!
The pivot of a request moves to the origin of where it was and what is mentioned next. It stays
above all that it has been above. What it moves to is chosen before the rest is seen, though, and a
choice may lose an object type that is above the rest as well.
-/

namespace Inquiry

open List Term Keyword Request

namespace Keyword

variable {ks : List String}

theorem mem_of_walk {skip : Bool} {want : Nat} {ps : List String} {j pos : Nat} {found : Option Nat}
    {i : Nat} (h : walk skip want ks ps j pos found = some i) : ∀ p ∈ ps, p ∈ ks := by
  fun_induction walk skip want ks ps j pos found
  case case1 => simp
  case case2 => simp at h
  case case3 => simp at h
  case case4 ih =>
    intro p hp
    exact mem_cons_of_mem _ (ih h p hp)
  case case5 k ks p ps _ _ _ hk _ hs ih =>
    have hpk : p = k := by simp_all
    intro p' hp'
    cases mem_cons.mp hp'
    case inl he => simp [he, hpk]
    case inr hm => exact mem_cons_of_mem _ (ih h p' hm)

theorem Cue.mem_of_find? {c : Cue} {i : Nat} (h : c.find? ks = some i) :
    ∀ p ∈ c.pattern, p ∈ ks := by
  rw [Cue.find?, Keyword.find?, if_pos (Int.le_refl 0)] at h
  have ⟨j, _, h⟩ := exists_of_findSome?_eq_some h
  rw [matchAt] at h
  split at h
  case isFalse => simp at h
  case isTrue =>
    split at h
    case h_1 => simp at h
    case h_2 k rest hd =>
      split at h
      case isTrue  => simp at h
      case isFalse =>
        intro p hp
        apply mem_of_mem_drop (i := (j : Int).toNat)
        rw [hd]
        exact mem_of_walk h p hp

-- Nothing is put in an order where nothing is said to be greatest or smallest. One of the cues is
-- spelled as no keyword is.
theorem places_orderedCues (h : ∀ k ∈ ks, k ∈ vocabulary ∧ k ≠ greatest ∧ k ≠ smallest) :
    places orderedCues ks = [] := by
  have hc : ∀ c ∈ orderedCues, ∃ p ∈ c.pattern,
      p ∉ vocabulary ∨ p = greatest ∨ p = smallest := by
    decide
  rw [places, filterMap_eq_nil_iff]
  intro c hm
  have ⟨p, hp, hn⟩ := hc c hm
  cases hf : c.find? ks
  case none   => rfl
  case some i =>
    have ⟨hv, hg, hs⟩ := h p (Cue.mem_of_find? hf p hp)
    simp_all

end Keyword

namespace Graph

instance (g : Graph) (a b : String) : Decidable (g.Reaches a b) :=
  inferInstanceAs (Decidable (_ ≠ []))

-- One of the terms is the other one, or leads to it.
def Above (g : Graph) (t u : Term) : Prop :=
  t = u ∨ g.Reaches t.printed u.printed

theorem Above.refl (g : Graph) (t : Term) : g.Above t t :=
  .inl rfl

end Graph

theorem Model.Distinct.above_trans {m : Model} (h : m.Distinct) {t u v : Term}
    (htu : m.graph.Above t u) (huv : m.graph.Above u v) : m.graph.Above t v := by
  cases htu
  case inl he => exact he ▸ huv
  case inr htu =>
    cases huv
    case inl he  => exact .inr (he ▸ htu)
    case inr huv => exact .inr (h.reaches_trans htu huv)

theorem SessionM.Reached.preferred {s₀ s : Session} (h : Reached s₀ s) :
    s.preferred = s₀.preferred :=
  h.keeps (I := (·.preferred = s₀.preferred)) ⟨fun _ h => h, fun _ _ h => h, fun _ _ _ h _ => h⟩ rfl

namespace Request

open SessionM Session

-- The object type that a meaning counts for: the one that is mentioned, the domain of the relation
-- or the variable that is mentioned, or that of the variable that the constant belongs to.
inductive CountsFor (s : Session) : Meaning → Term → Prop
  | objectType {t} : t.isObjectType → t ∈ s.objectTypes → CountsFor s (.term t) t
  | element {t d} : (t.hasClass .objectTypeRelation ∨ t.isVariable) → t.source = .ok d →
    d ∈ s.objectTypes → CountsFor s (.term t) d
  | constant {t c v d} : t.isConstant → t.goal = .ok c → s.preferred.get? c = some v →
    v.source = .ok d → d ∈ s.objectTypes → CountsFor s (.term t) d

-- A request that mentions such things only, and says of nothing that it is greatest or smallest.
structure Plain (s : Session) (r : Request) : Prop where
  keywords  : ∀ k ∈ r.keywords, k ∈ vocabulary ∧ k ≠ greatest ∧ k ≠ smallest
  meanings  : ∀ m ∈ r.meanings, m = .nothing ∨ ∃ c, CountsFor s m c
  mentioned : ∃ m ∈ r.meanings, m ≠ .nothing

-- The term is above all that is mentioned.
def Covers (g : Graph) (s : Session) (ms : List Meaning) (p : Term) : Prop :=
  ∀ m ∈ ms, ∀ c, CountsFor s m c → g.Above p c

-- Each time something is mentioned, there is an origin of it and the pivot until then.
def NeverLost (s : Session) (ms : List Meaning) : Prop :=
  ∀ done m rest q s₁ c x s₂, ms = done ++ m :: rest → (done.foldlM widen .nothing).Gives s q s₁ →
    q ≠ .nothing → CountsFor s m c → (origin q c).Gives s₁ x s₂ → x ≠ .nothing

namespace CountsFor

variable {s : Session} {m : Meaning} {c : Term}

theorem mem (h : CountsFor s m c) : c ∈ s.objectTypes := by
  cases h <;> assumption

theorem ne_nothing (h : CountsFor s m c) : m ≠ .nothing := by
  rintro rfl
  cases h
  case objectType ht _     => cases ht
  case element ht _ _      => cases ht <;> contradiction
  case constant ht _ _ _   => cases ht

theorem candidate (h : CountsFor s m c) : candidate s.preferred m = .ok c := by
  have other {t : Term} {k l : KindClass} (hk : t.hasClass k) (hl : k ≠ l) :
      t.hasClass l = false := by
    cases t <;> simp_all [hasClass, cls?]
  cases h
  case objectType ht _ => simp [candidate, ht]
  case element t ht hd _ =>
    have ho : t.isObjectType = false := by
      cases ht
      case inl ht => exact other ht (by decide)
      case inr ht => exact other ht (by decide)
    have ht : (t.hasClass .objectTypeRelation || t.isVariable) = true := by simpa using ht
    simp only [candidate, ho, ht, hd, Bool.false_eq_true, if_false, if_true]
  case constant ht hc hv hd _ =>
    simp [candidate, isObjectType, isVariable, ht, hc, hv, hd,
      other (l := .objectType) ht (by decide), other (l := .objectTypeRelation) ht (by decide),
      other (l := .variable) ht (by decide)]

theorem unique {c' : Term} (h : CountsFor s m c) (h' : CountsFor s m c') : c = c' :=
  Except.ok.inj (h.candidate.symm.trans h'.candidate)

end CountsFor
theorem isNothing_iff {m : Meaning} : m.isNothing ↔ m = .nothing := by
  rw [Meaning.isNothing.eq_def]
  split
  case h_1   => simp [Meaning.nothing]
  case h_2 h => simpa [Meaning.nothing] using h

section Session

variable {m : Model} {s₀ s s' : Session} {t u x q c : Term} {w : Meaning} {ms : List Meaning}

theorem gives_widen_nothing (q : Term) (s : Session) : (widen q .nothing).Gives s q s :=
  gives_done

theorem gives_widen (hw : CountsFor s₀ w c) (hp : s.preferred = s₀.preferred)
    (hx : (origin q c).Gives s x s') :
    ∃ y, (widen q w).Gives s y s' ∧ (y = x ∧ x ≠ .nothing ∨ y = q ∧ x = .nothing) := by
  have hn : w.isNothing = false := by simpa using mt isNothing_iff.mp hw.ne_nothing
  have hc : candidate s.preferred w = .ok c := hp ▸ hw.candidate
  rw [widen, hn]
  by_cases hn : x = .nothing
  case pos =>
    refine ⟨q, gives_get_bind.mpr ?_, .inr ⟨rfl, hn⟩⟩
    rw [hc]
    exact Gives.bind gives_done (hx.bind (by simp [hn]))
  case neg =>
    refine ⟨x, gives_get_bind.mpr ?_, .inl ⟨rfl, hn⟩⟩
    rw [hc]
    refine Gives.bind gives_done (hx.bind ?_)
    split
    case h_1 => contradiction
    case h_2 => exact gives_done

theorem covers_append {g : Graph} : Covers g s (ms ++ [w]) q ↔
    Covers g s ms q ∧ ∀ c, CountsFor s w c → g.Above q c := by
  simp [Covers, or_imp, forall_and]

theorem covers_append_nothing {g : Graph} : Covers g s (ms ++ [.nothing]) q ↔ Covers g s ms q := by
  rw [covers_append, and_iff_left]
  exact fun c hc => absurd rfl hc.ne_nothing

variable (hm : m.Distinct) (h₀ : Session.start m = .ok s₀)
include hm h₀

theorem isKind_of_mem (h : Reached s₀ s) (ht : t ∈ s.objectTypes) : t.isKind := by
  have ⟨_, _, hk, _⟩ := exists_of_mem_right (forall₂_objectTypes hm h₀ h) ht
  exact hk

theorem ne_nothing_of_mem (h : Reached s₀ s) (ht : t ∈ s.objectTypes) : t ≠ .nothing := by
  rintro rfl
  cases isKind_of_mem hm h₀ h ht

theorem objectTypes_eq (h : Reached s₀ s) (h' : Reached s₀ s') :
    s'.objectTypes = s.objectTypes := by
  have hs₀ := (start_recalled hm h₀).left
  exact (h'.recalls hm hs₀).right.objectTypes.trans (h.recalls hm hs₀).right.objectTypes.symm

-- What is known under the name of an object type is one, unless it is called as the numbers are.
theorem isObjectType_of_mem (hg : ∀ v ∈ m.graph.nodesOfSort "ObjectType", v.name ≠ "getal")
    (h : Reached s₀ s) (ht : t ∈ s.objectTypes) : t.isObjectType := by
  have ⟨hs₀, ho⟩ := start_recalled hm h₀
  rw [(h.recalls hm hs₀).right.objectTypes] at ht
  have ⟨v, hv, hk⟩ := exists_of_mem_right ho ht
  have ⟨hv', hsort⟩ := mem_filter.mp hv
  have hsort : v.sort = "ObjectType" := by simpa using hsort
  have ⟨_, _, _, _, hshape, hc, _⟩ := kind_of_node .objectType hm.graph hs₀ (Array.mem_def.mpr hv')
    (hsort ▸ rfl) rfl (hg v hv) hk
  simp [hshape, isObjectType, hasClass, cls?, hc]

theorem exists_objectType (h : Reached s₀ s) (name : String)
    (hn : name ∈ (m.graph.nodesOfSort "ObjectType").map (·.name)) :
    ∃ t ∈ s.objectTypes, t.printed = name := by
  have he := map_eq_map_of_forall₂ (forall₂_objectTypes hm h₀ h) (f := (·.name)) (g := printed)
    fun _ _ h => h.right.symm
  rw [he] at hn
  exact mem_map.mp hn

theorem gives_origin_nothing (h : Reached s₀ s) (ht : t ∈ s.objectTypes) (s' : Session) :
    (origin .nothing t).Gives s' t s' := by
  have hk := isKind_of_mem hm h₀ h ht
  cases t <;> simp [isKind] at hk
  exact gives_done

theorem origin_above (h : Reached s₀ s) (ht : t ∈ s.objectTypes) (hu : u ∈ s.objectTypes)
    (hx : (origin t u).Gives s x s') :
    (x ∈ s.objectTypes ∧ m.graph.Above x t ∧ m.graph.Above x u) ∨
    (x = .nothing ∧ ∀ w ∈ s.objectTypes, m.graph.Above w t → ¬m.graph.Above w u) := by
  have hn : ∀ o ∈ s.objectTypes, o ≠ .nothing := fun _ => ne_nothing_of_mem hm h₀ h
  have hs := (h.recalls hm (start_recalled hm h₀).left).left
  obtain ⟨hr, rfl⟩ | ⟨hr, rfl⟩ | ⟨he, rfl⟩ | ⟨htu, hut, hne, hl⟩ :=
    origin_split hm hs (hn t ht) (hn u hu) hn hx
  · exact .inl ⟨ht, .refl _ x, .inr hr⟩
  · exact .inl ⟨hu, .inr hr, .refl _ x⟩
  · exact .inl ⟨ht, .refl _ x, .inl (objectTypes_identified hm h₀ h x ht u hu he)⟩
  · cases hl
    case found hx ht hu _ => exact .inl ⟨hx, .inr ht, .inr hu⟩
    case nothing hno =>
      refine .inr ⟨rfl, fun w hw hwt hwu => ?_⟩
      cases hwt <;> cases hwu
      case inl.inl hwt hwu => simp [← hwt, ← hwu] at hne
      case inl.inr hwt hwu => exact htu (hwt ▸ hwu)
      case inr.inl hwt hwu => exact hut (hwu ▸ hwt)
      case inr.inr hwt hwu => exact hno w hw hwt hwu

theorem exists_origin_of_mem (h : Reached s₀ s) (ht : t ∈ s.objectTypes) (hu : u ∈ s.objectTypes) :
    ∃ x s', (origin t u).Gives s x s' ∧ Reached s₀ s' := by
  have hs := (h.recalls hm (start_recalled hm h₀).left).left
  have ⟨x, s', hx⟩ := exists_origin (tellsPaths_named hm.graph) hs (isKind_of_mem hm h₀ h ht)
    (isKind_of_mem hm h₀ h hu)
  refine ⟨x, s', hx, ?_⟩
  have hr := h.origin t u
  rwa [hx] at hr

theorem gives_widen_first (h : Reached s₀ s) (hw : CountsFor s w c)
    (hp : s'.preferred = s.preferred) : (widen .nothing w).Gives s' c s' := by
  have hx := gives_origin_nothing hm h₀ h hw.mem s'
  obtain ⟨y, hy, ⟨rfl, _⟩ | ⟨_, hn⟩⟩ := gives_widen hw hp hx
  · exact hy
  · exact absurd hn (ne_nothing_of_mem hm h₀ h hw.mem)

-- The pivot keeps a property `K` if what is mentioned has it and moving keeps it. The invariant:
-- where something has been mentioned, the pivot is above all of it.
theorem foldlM_widen {K : Term → Prop} (h : Reached s₀ s)
    (hms : ∀ w ∈ ms, w = .nothing ∨ ∃ c, CountsFor s w c)
    (first : ∀ w ∈ ms, ∀ c, CountsFor s w c → K c)
    (next : ∀ done w rest q s₁ c x s₂, ms = done ++ w :: rest →
      (done.foldlM widen .nothing).Gives s q s₁ → Reached s₀ s₁ → q ∈ s₁.objectTypes → K q →
      CountsFor s w c → (origin q c).Gives s₁ x s₂ → x ≠ .nothing ∧ K x) :
    ∃ p s', (ms.foldlM widen .nothing).Gives s p s' ∧
      ((p = .nothing ∧ ∀ w ∈ ms, w = .nothing) ∨
        p ∈ s.objectTypes ∧ K p ∧ Covers m.graph s ms p) := by
  have hos {s₁ : Session} (h₁ : Reached s₀ s₁) := objectTypes_eq hm h₀ h h₁
  let J (done : List Meaning) (s₁ : Session) (q : Term) : Prop := Reached s₀ s₁ ∧
    ((q = .nothing ∧ ∀ w ∈ done, w = .nothing) ∨
      q ∈ s.objectTypes ∧ K q ∧ Covers m.graph s done q)
  suffices hf : ∃ p s', (ms.foldlM widen .nothing).Gives s p s' ∧ J ms s' p by
    have ⟨p, s', hp, _, hq⟩ := hf
    exact ⟨p, s', hp, hq⟩
  refine exists_foldlM (J := J) ⟨h, .inl ⟨rfl, by simp⟩⟩ fun done w rest s₁ q he hq hj => ?_
  have ⟨h₁, hj⟩ := hj
  have hw : w ∈ ms := he ▸ by simp
  cases hms w hw
  case inl hn =>
    subst hn
    refine ⟨q, s₁, gives_widen_nothing q s₁, h₁, ?_⟩
    cases hj
    case inl hj => exact .inl ⟨hj.left, by simpa [or_imp, forall_and] using hj.right⟩
    case inr hj => exact .inr ⟨hj.left, hj.right.left, covers_append_nothing.mpr hj.right.right⟩
  case inr hc =>
    have ⟨c, hc⟩ := hc
    have hp : s₁.preferred = s.preferred := h₁.preferred.trans h.preferred.symm
    -- Once there is a pivot it moves to an origin, which is above it and so above all that it was
    -- above.
    cases hj
    case inl hj =>
      obtain ⟨rfl, hd⟩ := hj
      have hy := gives_widen_first hm h₀ h hc hp
      refine ⟨c, s₁, hy, h₁, .inr ⟨hc.mem, first w hw c hc, covers_append.mpr ⟨?_, ?_⟩⟩⟩
      · intro w' hw' c' hc'
        exact absurd (hd w' hw') hc'.ne_nothing
      · intro c' hc'
        exact .inl (hc.unique hc')
    case inr hj =>
      have ⟨hq₁, hk, hcov⟩ := hj
      have ⟨x, s₂, hx, h₂⟩ := exists_origin_of_mem hm h₀ h₁ (hos h₁ ▸ hq₁) (hos h₁ ▸ hc.mem)
      have ⟨hn, hkx⟩ := next done w rest q s₁ c x s₂ he hq h₁ (hos h₁ ▸ hq₁) hk hc hx
      obtain ⟨hmem, hxq, hxc⟩ | ⟨hx', _⟩ :=
        origin_above hm h₀ h₁ (hos h₁ ▸ hq₁) (hos h₁ ▸ hc.mem) hx
      case inr => exact absurd hx' hn
      obtain ⟨y, hy, ⟨rfl, _⟩ | ⟨_, hx'⟩⟩ := gives_widen hc hp hx
      case inr => exact absurd hx' hn
      refine ⟨y, s₂, hy, h₂, .inr ⟨hos h₁ ▸ hmem, hkx, covers_append.mpr ⟨?_, ?_⟩⟩⟩
      · intro w' hw' c' hc'
        exact hm.above_trans hxq (hcov w' hw' c' hc')
      · intro c' hc'
        exact hc.unique hc' ▸ hxc

omit hm h₀ in
theorem gives_pivot {r : Request} {p : Term}
    (hk : ∀ k ∈ r.keywords, k ∈ vocabulary ∧ k ≠ greatest ∧ k ≠ smallest)
    (hp : (r.meanings.foldlM widen .nothing).Gives s p s') : r.pivot.Gives s p s' := by
  refine hp.bind (gives_get_bind.mpr ?_)
  rw [places_orderedCues hk]
  exact Gives.bind gives_done gives_done

theorem gives_pivot_covers {K : Term → Prop} {r : Request} (h : Reached s₀ s) (hr : r.Plain s)
    (first : ∀ w ∈ r.meanings, ∀ c, CountsFor s w c → K c)
    (next : ∀ done w rest q s₁ c x s₂, r.meanings = done ++ w :: rest →
      (done.foldlM widen .nothing).Gives s q s₁ → Reached s₀ s₁ → q ∈ s₁.objectTypes → K q →
      CountsFor s w c → (origin q c).Gives s₁ x s₂ → x ≠ .nothing ∧ K x) :
    ∃ p s', r.pivot.Gives s p s' ∧ p ∈ s.objectTypes ∧ Covers m.graph s r.meanings p := by
  have ⟨p, s', hp, hq⟩ := foldlM_widen hm h₀ h hr.meanings first next
  have ⟨w, hw, hn⟩ := hr.mentioned
  cases hq
  case inl hq => exact absurd (hq.right w hw) hn
  case inr hq => exact ⟨p, s', gives_pivot hr.keywords hp, hq.left, hq.right.right⟩

end Session

variable {m : Model} {s₀ s : Session}

-- Wherever a session has come to: if the pivot is never lost, it is found and is above all that is
-- mentioned, wherever that stands.
theorem pivot_above_all (hm : m.Distinct) (h₀ : Session.start m = .ok s₀) (h : Reached s₀ s)
    (r : Request) (hr : r.Plain s) (hl : NeverLost s r.meanings) :
    ∃ p s', r.pivot.Gives s p s' ∧ p ∈ s.objectTypes ∧ Covers m.graph s r.meanings p := by
  apply gives_pivot_covers (K := fun _ => True) hm h₀ h hr
  · exact fun _ _ _ _ => trivial
  · intro done w rest q s₁ c x s₂ he hq h₁ hq₁ _ hc hx
    have hn := ne_nothing_of_mem hm h₀ h₁ hq₁
    exact ⟨hl done w rest q s₁ c x s₂ he hq hn hc hx, trivial⟩

section Works

open Dwelling

def personsAndFirms (t u : Term) : Request where
  meanings := [.term t, .nothing, .term u]
  keywords := [objectType, unknown, objectType]

theorem personsAndFirms_plain {t u : Term} (ht : CountsFor s (.term t) t)
    (hu : CountsFor s (.term u) u) : (personsAndFirms t u).Plain s where
  keywords := by
    change ∀ k ∈ [Keyword.objectType, Keyword.unknown, Keyword.objectType], _
    decide
  meanings w hw := by
    simp only [personsAndFirms, mem_cons, not_mem_nil, or_false] at hw
    obtain rfl | rfl | rfl := hw
    · exact .inr ⟨t, ht⟩
    · exact .inl rfl
    · exact .inr ⟨u, hu⟩
  mentioned := ⟨.term t, by simp [personsAndFirms], ht.ne_nothing⟩

theorem personsAndFirms_neverLost (hm : m.Distinct) (h₀ : Session.start m = .ok s₀)
    (h : Reached s₀ s) {t u o : Term} (ht : CountsFor s (.term t) t) (hu : CountsFor s (.term u) u)
    (ho : o ∈ s.objectTypes) (hot : m.graph.Above o t) (hou : m.graph.Above o u) :
    NeverLost s (personsAndFirms t u).meanings := by
  intro done w rest q s₁ c x s₂ he hq hn hc hx
  rcases done with _ | ⟨a, _ | ⟨b, _ | ⟨_, done⟩⟩⟩
  case nil => exact absurd (gives_pure.mp hq).left hn.symm
  case cons.nil =>
    obtain ⟨_, rfl, _⟩ : _ ∧ .nothing = w ∧ _ := by simpa [personsAndFirms] using he
    exact absurd rfl hc.ne_nothing
  case cons.cons.nil =>
    obtain ⟨rfl, rfl, rfl, _⟩ : .term t = a ∧ .nothing = b ∧ .term u = w ∧ _ := by
      simpa [personsAndFirms] using he
    have hrun : ([.term t, .nothing].foldlM widen .nothing).Gives s t s :=
      Gives.bind (gives_widen_first hm h₀ h ht rfl)
        (Gives.bind (gives_widen_nothing t s) gives_done)
    obtain ⟨rfl, rfl⟩ := hq.unique hrun
    obtain rfl := hu.unique hc
    obtain ⟨hxm, _⟩ | ⟨_, hno⟩ := origin_above hm h₀ h ht.mem hu.mem hx
    · exact ne_nothing_of_mem hm h₀ h hxm
    · exact absurd hou (hno o ho hot)
  case cons.cons.cons => simp [personsAndFirms] at he

theorem personsAndFirms_covered : works.Distinct ∧
    ∃ s₀, Session.start works = .ok s₀ ∧ Reached s₀ s₀ ∧
      ∃ t ∈ s₀.objectTypes, ∃ u ∈ s₀.objectTypes, t.printed = "persoon" ∧ u.printed = "bedrijf" ∧
        (personsAndFirms t u).Plain s₀ ∧ NeverLost s₀ (personsAndFirms t u).meanings ∧
        ∃ p s', (personsAndFirms t u).pivot.Gives s₀ p s' ∧ p ∈ s₀.objectTypes ∧
          Covers works.graph s₀ (personsAndFirms t u).meanings p := by
  have hm := works_distinct
  have ⟨s₀, h₀⟩ := start_of_fit works_fit rfl
  have ⟨j, hj, hjn⟩ := exists_objectType hm h₀ .start "baan" (by decide)
  have ⟨t, ht, htn⟩ := exists_objectType hm h₀ .start "persoon" (by decide)
  have ⟨u, hu, hun⟩ := exists_objectType hm h₀ .start "bedrijf" (by decide)
  have type {k : Term} (hk : k ∈ s₀.objectTypes) : CountsFor s₀ (.term k) k :=
    .objectType (isObjectType_of_mem hm h₀ (by decide) .start hk) hk
  have hjt : works.graph.Above j t := by
    rw [Graph.Above, hjn, htn]
    exact .inr (by decide)
  have hju : works.graph.Above j u := by
    rw [Graph.Above, hjn, hun]
    exact .inr (by decide)
  have hplain := personsAndFirms_plain (type ht) (type hu)
  have hlost := personsAndFirms_neverLost hm h₀ .start (type ht) (type hu) hj hjt hju
  exact ⟨hm, s₀, h₀, .start, t, ht, u, hu, htn, hun, hplain, hlost,
    pivot_above_all hm h₀ .start _ hplain hlost⟩

end Works

def three (t u z : Term) : Request where
  meanings := [.term t, .term u, .term z]
  keywords := [objectType, objectType, objectType]

theorem three_plain {t u z : Term} (ht : CountsFor s (.term t) t) (hu : CountsFor s (.term u) u)
    (hz : CountsFor s (.term z) z) : (three t u z).Plain s where
  keywords := by
    change ∀ k ∈ [objectType, objectType, objectType], _
    decide
  meanings w hw := by
    simp only [three, mem_cons, not_mem_nil, or_false] at hw
    obtain rfl | rfl | rfl := hw
    · exact .inr ⟨t, ht⟩
    · exact .inr ⟨u, hu⟩
    · exact .inr ⟨z, hz⟩
  mentioned := ⟨.term t, by simp [three], ht.ne_nothing⟩

-- It ends at an origin of what the first two come from and the third one, if there is one.
theorem pivot_three (hm : m.Distinct) (h₀ : Session.start m = .ok s₀) (h : Reached s₀ s)
    {t u z x : Term} {s₁ : Session} (ht : CountsFor s (.term t) t) (hu : CountsFor s (.term u) u)
    (hz : CountsFor s (.term z) z) (hx : (origin t u).Gives s x s₁) (hxm : x ∈ s.objectTypes) :
    ∃ p s₂, (three t u z).pivot.Gives s p s₂ ∧
      (m.graph.Above p x ∧ m.graph.Above p z ∨ p = x) := by
  have h₁ : Reached s₀ s₁ := by
    have hr := h.origin t u
    rwa [hx] at hr
  have hos := objectTypes_eq hm h₀ h h₁
  have hp : s₁.preferred = s.preferred := h₁.preferred.trans h.preferred.symm
  have hw₁ := gives_widen_first hm h₀ h ht rfl
  have hw₂ : (widen t (.term u)).Gives s x s₁ := by
    obtain ⟨y, hy, ⟨rfl, _⟩ | ⟨_, hn⟩⟩ := gives_widen hu rfl hx
    · exact hy
    · exact absurd hn (ne_nothing_of_mem hm h₀ h hxm)
  have ⟨y, s₂, hy, _⟩ := exists_origin_of_mem hm h₀ h₁ (hos ▸ hxm) (hos ▸ hz.mem)
  have ⟨p, hw₃, hyp⟩ := gives_widen hz hp hy
  have hf : ((three t u z).meanings.foldlM widen .nothing).Gives s p s₂ :=
    hw₁.bind (hw₂.bind (hw₃.bind gives_done))
  refine ⟨p, s₂, gives_pivot (three_plain ht hu hz).keywords hf, ?_⟩
  obtain ⟨rfl, hn⟩ | ⟨rfl, _⟩ := hyp
  case inr => exact .inr rfl
  obtain ⟨_, hpx, hpz⟩ | ⟨hn', _⟩ := origin_above hm h₀ h₁ (hos ▸ hxm) (hos ▸ hz.mem) hy
  · exact .inl ⟨hpx, hpz⟩
  · exact absurd hn' hn

-- The pivot is found whenever there is one, for every request in every state, exactly if an origin
-- of two object types never loses what is above both: whatever is above both has an object type above
-- it that is above their origin too.
theorem pivot_found_iff (hm : m.Distinct)
    (hg : ∀ v ∈ m.graph.nodesOfSort "ObjectType", v.name ≠ "getal")
    (h₀ : Session.start m = .ok s₀) :
    (∀ s, Reached s₀ s → ∀ r : Request, r.Plain s →
      (∃ z ∈ s.objectTypes, Covers m.graph s r.meanings z) →
      ∃ p s', r.pivot.Gives s p s' ∧ p ∈ s.objectTypes ∧ Covers m.graph s r.meanings p) ↔
    ∀ s, Reached s₀ s → ∀ t ∈ s.objectTypes, ∀ u ∈ s.objectTypes, ∀ z ∈ s.objectTypes,
      m.graph.Above z t → m.graph.Above z u → ∀ x s', (origin t u).Gives s x s' →
        ∃ w ∈ s.objectTypes, m.graph.Above w x ∧ m.graph.Above w z := by
  have type {s : Session} (h : Reached s₀ s) {t : Term} (ht : t ∈ s.objectTypes) :
      CountsFor s (.term t) t :=
    .objectType (isObjectType_of_mem hm h₀ hg h ht) ht
  constructor
  · intro hall s h t ht u hu z hz hzt hzu x s₁ hx
    obtain ⟨hxm, _, _⟩ | ⟨_, hno⟩ := origin_above hm h₀ h ht hu hx
    case inr => exact absurd hzu (hno z hz hzt)
    have above : Covers m.graph s (three t u z).meanings z := by
      intro w hw c hc
      simp only [three, List.mem_cons, List.not_mem_nil, or_false] at hw
      obtain rfl | rfl | rfl := hw
      · exact (type h ht).unique hc ▸ hzt
      · exact (type h hu).unique hc ▸ hzu
      · exact (type h hz).unique hc ▸ .refl _ z
    have ⟨p, s', hp, hpm, hcov⟩ := hall s h _
      (three_plain (type h ht) (type h hu) (type h hz)) ⟨z, hz, above⟩
    have ⟨p', s₂, hp', hpx⟩ := pivot_three hm h₀ h (type h ht) (type h hu) (type h hz) hx hxm
    obtain ⟨rfl, _⟩ := hp.unique hp'
    have hpz : m.graph.Above p z := hcov (.term z) (by simp [three]) z (type h hz)
    obtain ⟨hpx, _⟩ | rfl := hpx
    · exact ⟨p, hpm, hpx, hpz⟩
    · exact ⟨p, hpm, .refl _ p, hpz⟩
  · intro hkept s h r hr ⟨z, hz, hcov⟩
    -- Something stays above both the pivot and `z`; it is above what is mentioned next, so that
    -- there is an origin.
    let K (q : Term) : Prop := ∃ w ∈ s.objectTypes, m.graph.Above w q ∧ m.graph.Above w z
    apply gives_pivot_covers (K := K) hm h₀ h hr
    · intro w hw c hc
      exact ⟨z, hz, hcov w hw c hc, .refl _ z⟩
    · intro done w rest q s₁ c x s₂ he hq h₁ hq₁ ⟨v, hv, hvq, hvz⟩ hc hx
      have hos := objectTypes_eq hm h₀ h h₁
      have hvc : m.graph.Above v c := hm.above_trans hvz (hcov w (he ▸ by simp) c hc)
      rw [← hos] at hv
      have hcm : c ∈ s₁.objectTypes := hos ▸ hc.mem
      have ⟨v', hv', hvx, hvv⟩ := hkept s₁ h₁ q hq₁ c hcm v hv hvq hvc x s₂ hx
      refine ⟨?_, v', hos ▸ hv', hvx, hm.above_trans hvv hvz⟩
      obtain ⟨hxm, _⟩ | ⟨_, hno⟩ := origin_above hm h₀ h₁ hq₁ hcm hx
      · exact ne_nothing_of_mem hm h₀ h₁ hxm
      · exact absurd hvc (hno v hv hvq)

section Crimes

open Dwelling

-- Persons and crimes both have a place and a date, and nothing leads to both of them.
def crimes : Model where
  nodes := [objectType "persoon", objectType "delict", objectType "gemeente", objectType "datum"]
  edges := [relation "woont in" "persoon" "gemeente", relation "geboren op" "persoon" "datum",
    relation "gepleegd in" "delict" "gemeente", relation "gepleegd op" "delict" "datum"]

theorem crimes_distinct : crimes.Distinct :=
  ⟨⟨by decide, by decide, by decide, by decide, by decide⟩, by simp [crimes]⟩

theorem crimes_fit : crimes.Fit :=
  ⟨regular_of_sorts (by decide) (by decide) (by decide), by decide, by simp [crimes]⟩

-- Whatever leads to places and dates, something else leads there too, and nothing leads to both of
-- them.
theorem crimes_split : ∀ a ∈ ["persoon", "delict", "gemeente", "datum"],
    (a = "gemeente" ∨ crimes.graph.Reaches a "gemeente") →
    (a = "datum" ∨ crimes.graph.Reaches a "datum") →
    ∃ b ∈ ["persoon", "delict"],
      crimes.graph.Reaches b "gemeente" ∧ crimes.graph.Reaches b "datum" ∧
      ∀ c ∈ ["persoon", "delict", "gemeente", "datum"], (c = a ∨ crimes.graph.Reaches c a) →
        ¬(c = b ∨ crimes.graph.Reaches c b) := by
  decide

-- So the pivot of some request leaves out what is mentioned, though something is above it all.
theorem crimes_pivot_lost : crimes.Distinct ∧
    (∀ v ∈ crimes.graph.nodesOfSort "ObjectType", v.name ≠ "getal") ∧
    ∃ s₀, Session.start crimes = .ok s₀ ∧
      ¬∀ s, Reached s₀ s → ∀ r : Request, r.Plain s →
        (∃ z ∈ s.objectTypes, Covers crimes.graph s r.meanings z) →
        ∃ p s', r.pivot.Gives s p s' ∧ p ∈ s.objectTypes ∧
          Covers crimes.graph s r.meanings p := by
  have hm := crimes_distinct
  have hg : ∀ v ∈ crimes.graph.nodesOfSort "ObjectType", v.name ≠ "getal" := by decide
  have ⟨s₀, h₀⟩ := start_of_fit crimes_fit rfl
  refine ⟨hm, hg, s₀, h₀, fun hall => ?_⟩
  have hkept := (pivot_found_iff hm hg h₀).mp hall s₀ .start
  have ⟨t, ht, htn⟩ := exists_objectType hm h₀ .start "gemeente" (by decide)
  have ⟨u, hu, hun⟩ := exists_objectType hm h₀ .start "datum" (by decide)
  have name {k : Term} (hk : k ∈ s₀.objectTypes) :
      k.printed ∈ ["persoon", "delict", "gemeente", "datum"] := by
    have ⟨v, hv, _, hn⟩ := exists_of_mem_right (forall₂_objectTypes hm h₀ .start) hk
    exact hn ▸ List.mem_map_of_mem (f := (·.name)) hv
  have above {k l : Term} (h : crimes.graph.Above k l) :
      k.printed = l.printed ∨ crimes.graph.Reaches k.printed l.printed :=
    h.imp_left (congrArg _)
  have ⟨x, s', hx, _⟩ := exists_origin_of_mem hm h₀ .start ht hu
  obtain ⟨hxm, hxt, hxu⟩ | ⟨_, hno⟩ := origin_above hm h₀ .start ht hu hx
  case inr =>
    have ⟨k, hk, hkn⟩ := exists_objectType hm h₀ .start "persoon" (by decide)
    refine hno k hk (.inr ?_) (.inr ?_)
    · rw [hkn, htn]
      decide
    · rw [hkn, hun]
      decide
  have ⟨b, hb, hbt, hbu, hsplit⟩ :=
    crimes_split x.printed (name hxm) (htn ▸ above hxt) (hun ▸ above hxu)
  have hnodes : ∀ b ∈ ["persoon", "delict"],
      b ∈ (crimes.graph.nodesOfSort "ObjectType").map (·.name) := by
    decide
  have ⟨z, hz, hzn⟩ := exists_objectType hm h₀ .start b (hnodes b hb)
  have hzt : crimes.graph.Above z t := .inr (hzn ▸ htn ▸ hbt)
  have hzu : crimes.graph.Above z u := .inr (hzn ▸ hun ▸ hbu)
  have ⟨w, hw, hwx, hwz⟩ := hkept t ht u hu z hz hzt hzu x s' hx
  exact hsplit w.printed (name hw) (above hwx) (hzn ▸ above hwz)

end Crimes

end Request
end Inquiry
