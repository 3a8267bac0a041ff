import Mathlib
import Inquiry.Proofs.Session.Knowing

/-!
What is recalled from a graph of consistent types. A kind that is recalled has the ends that its
edge tells, and all that is known of the graph stays as it is.
-/

namespace Inquiry

open KindClass SessionM

-- The names of the variable that is one for each object of a type, and of the one that takes all
-- objects together.
def countingTitle (p : String) : String := "een(" ++ p ++ ")"
def togetherTitle (p : String) : String := "alle(" ++ p ++ ")"

theorem countingTitle_injective : Function.Injective countingTitle := by
  intro p q h
  simpa [countingTitle, String.ext_iff] using h

theorem togetherTitle_injective : Function.Injective togetherTitle := by
  intro p q h
  simpa [togetherTitle, String.ext_iff] using h

theorem countingTitle_ne_togetherTitle (p q : String) : countingTitle p ≠ togetherTitle q := by
  simp [countingTitle, togetherTitle, String.ext_iff]

theorem ne_title {name : String} (h : name.toList.head? ∉ [some 'e', some 'a']) (p : String) :
    name ≠ countingTitle p ∧ name ≠ togetherTitle p := by
  constructor <;> rintro rfl
  case left  => simp [countingTitle] at h
  case right => simp [togetherTitle] at h

namespace Graph

-- No name is used twice, each edge has the ends of its nodes, and constants go from the type with a
-- single member. The names of counting variables are left to the edges that count.
structure Consistent (g : Graph) : Prop where
  distinct : (g.nodes.toList.map (·.name) ++ g.edges.toList.map (·.name)).Nodup
  types    : ∀ v ∈ g.nodes, ∃ c, ofLabel? v.sort = some c ∧ c.isType ∧ built c
  elements : ∀ e ∈ g.edges, ∃ c, ofLabel? e.sort = some c ∧ c.isElement ∧
    built c ∧ (c = .constant → e.domain.name = "1")
  source   : ∀ e ∈ g.edges, ∃ v, g.nodes[e.source]? = some v ∧ v.name = e.domain.name ∧
    v.sort = e.domain.sort
  target   : ∀ e ∈ g.edges, ∃ v, g.nodes[e.target]? = some v ∧ v.name = e.codomain.name ∧
    v.sort = e.codomain.sort
  counting : ∀ e ∈ g.edges, ∀ p, e.name = countingTitle p →
    e.domain.name = p ∧ e.codomain.name = "getal"
  together : ∀ e ∈ g.edges, ∀ p, e.name = togetherTitle p →
    e.domain.name = p ∧ e.codomain.name = "1"
  reserved : ∀ v ∈ g.nodes, ∀ p, v.name ≠ countingTitle p ∧ v.name ≠ togetherTitle p

-- A graph in which no name begins as the titles do has nothing to say about them.
theorem consistent_of_heads {g : Graph}
    (hn : (g.nodes.toList.map (·.name) ++ g.edges.toList.map (·.name)).Nodup)
    (hv : ∀ v ∈ g.nodes, v.name.toList.head? ∉ [some 'e', some 'a'])
    (he : ∀ e ∈ g.edges, e.name.toList.head? ∉ [some 'e', some 'a'])
    (ht : ∀ v ∈ g.nodes, ∃ c, ofLabel? v.sort = some c ∧ c.isType ∧ built c)
    (hl : ∀ e ∈ g.edges, ∃ c, ofLabel? e.sort = some c ∧ c.isElement ∧
      built c ∧ (c = .constant → e.domain.name = "1"))
    (hs : ∀ e ∈ g.edges, ∃ v, g.nodes[e.source]? = some v ∧ v.name = e.domain.name ∧
      v.sort = e.domain.sort)
    (hc : ∀ e ∈ g.edges, ∃ v, g.nodes[e.target]? = some v ∧ v.name = e.codomain.name ∧
      v.sort = e.codomain.sort) : g.Consistent where
  distinct := hn
  types    := ht
  elements := hl
  source   := hs
  target   := hc
  counting := fun e h p hp => absurd hp (ne_title (he e h) p).left
  together := fun e h p hp => absurd hp (ne_title (he e h) p).right
  reserved := fun v h => ne_title (hv v h)

theorem Consistent.sound {g : Graph} (h : g.Consistent) : g.Sound where
  distinct := h.distinct
  types    := h.types
  elements := fun e he =>
    have ⟨c, hc, ht, hb, ho⟩ := h.elements e he
    ⟨c, ⟨hc, ht, hb⟩, ho⟩
  source   := fun e he =>
    have ⟨v, hv, hn, hs⟩ := h.source e he
    ⟨by simp [nameOf, hv, hn], hs ▸ h.types v (Array.mem_of_getElem? hv)⟩
  target   := fun e he =>
    have ⟨v, hv, hn, hs⟩ := h.target e he
    ⟨by simp [nameOf, hv, hn], hs ▸ h.types v (Array.mem_of_getElem? hv)⟩

end Graph

namespace Session

-- What may be known under a name: a type for a node, and an element with the right ends for an edge
-- or under the name of a counting variable.
structure Fits (s : Session) (name : String) (k : Term) : Prop where
  node     : ∀ v ∈ s.graph.nodes, v.name = name → k.TypeKind
  edge     : ∀ e ∈ s.graph.edges, e.name = name → ∃ d c, s.known[e.domain.name]? = some d ∧
    s.known[e.codomain.name]? = some c ∧ k.ElementKind d c
  counting : ∀ p, name = countingTitle p → ∃ d, s.known[p]? = some d ∧ k.ElementKind d s.number
  together : ∀ p, name = togetherTitle p → ∃ d, s.known[p]? = some d ∧ k.ElementKind d .one

structure Consistent (s : Session) : Prop where
  graph  : s.graph.Consistent
  one    : s.known["1"]? = some .one
  getal  : s.known["getal"]? = some s.number
  number : s.number.TypeKind
  known  : ∀ (name : String) (k : Term), s.known[name]? = some k → s.Fits name k

variable {s s' : Session} {d k : Term}

theorem Fits.later {name : String} (h : s.Fits name k) (hl : s.Later s') :
    s'.Fits name k where
  node := hl.graph ▸ h.node
  edge := fun e he hn =>
    have ⟨d, c, hd, hc, hk⟩ := h.edge e (hl.graph ▸ he) hn
    ⟨d, c, hl.known _ _ hd, hl.known _ _ hc, hk⟩
  counting := fun p hp =>
    have ⟨d, hd, hk⟩ := h.counting p hp
    ⟨d, hl.known _ _ hd, hl.number ▸ hk⟩
  together := fun p hp =>
    have ⟨d, hd, hk⟩ := h.together p hp
    ⟨d, hl.known _ _ hd, hk⟩

theorem Consistent.numbered (h : s.Consistent) : s.numbered.Consistent where
  graph  := h.graph
  one    := h.one
  getal  := h.getal
  number := h.number
  known  := fun name k hk => (h.known name k hk).later (.numbered s)

theorem Consistent.know {name : String} (hs : s.Consistent)
    (h : s.known[name]? = none) (hk : s.Fits name k) : (s.know name k).Consistent where
  graph  := hs.graph
  one    := (Later.know h).known _ _ hs.one
  getal  := (Later.know h).known _ _ hs.getal
  number := hs.number
  known  := fun name' k' hk' => by
    refine Fits.later ?_ (Later.know h)
    by_cases hn : name' = name
    case pos =>
      subst hn
      rw [known_know] at hk'
      exact Option.some.inj hk' ▸ hk
    case neg =>
      rw [known_know_of_ne s k hn] at hk'
      exact hs.known name' k' hk'

theorem Consistent.fits_node {v : Node} (hs : s.Consistent) (hv : v ∈ s.graph.nodes)
    (hk : k.TypeKind) : s.Fits v.name k where
  node     := fun _ _ _ => hk
  edge     := fun _ he hn => absurd hn.symm (hs.graph.sound.name_ne hv he)
  counting := fun p hp => absurd hp (hs.graph.reserved v hv p).left
  together := fun p hp => absurd hp (hs.graph.reserved v hv p).right

theorem Consistent.fits_edge {e : Edge} {c : Term} (hs : s.Consistent) (he : e ∈ s.graph.edges)
    (hd : s.known[e.domain.name]? = some d) (hc : s.known[e.codomain.name]? = some c)
    (hk : k.ElementKind d c) : s.Fits e.name k where
  node     := fun _ hv hn => absurd hn (hs.graph.sound.name_ne hv he)
  edge     := fun e' he' hn => hs.graph.sound.edge_eq he he' hn.symm ▸ ⟨d, c, hd, hc, hk⟩
  counting := fun p hp => by
    have ⟨hp, hn⟩ := hs.graph.counting e he p hp
    rw [hn, hs.getal] at hc
    exact ⟨d, hp ▸ hd, Option.some.inj hc ▸ hk⟩
  together := fun p hp => by
    have ⟨hp, hn⟩ := hs.graph.together e he p hp
    rw [hn, hs.one] at hc
    exact ⟨d, hp ▸ hd, Option.some.inj hc ▸ hk⟩

theorem Consistent.fits_counting {p : String} (hs : s.Consistent)
    (he : s.graph.edge? (countingTitle p) = none) (hd : s.known[p]? = some d)
    (hk : k.ElementKind d s.number) : s.Fits (countingTitle p) k where
  node     := fun v hv hn => absurd hn (hs.graph.reserved v hv p).left
  edge     := fun e he' hn => absurd hn (by simpa using Array.find?_eq_none.mp he e he')
  counting := fun _ hp => countingTitle_injective hp ▸ ⟨d, hd, hk⟩
  together := fun q hq => absurd hq (countingTitle_ne_togetherTitle p q)

theorem Consistent.fits_together {p : String} (hs : s.Consistent)
    (he : s.graph.edge? (togetherTitle p) = none) (hd : s.known[p]? = some d)
    (hk : k.ElementKind d .one) : s.Fits (togetherTitle p) k where
  node     := fun v hv hn => absurd hn (hs.graph.reserved v hv p).right
  edge     := fun e he' hn => absurd hn (by simpa using Array.find?_eq_none.mp he e he')
  counting := fun q hq => absurd hq.symm (countingTitle_ne_togetherTitle q p)
  together := fun _ hp => togetherTitle_injective hp ▸ ⟨d, hd, hk⟩

theorem consistent_of_fresh (hg : s.graph.Consistent) (ht : s.number.TypeKind)
    (hk : s.known = (({} : Std.HashMap String Term).insert "1" .one).insert "getal" s.number)
    (he : ∀ e ∈ s.graph.edges, e.name ≠ "1" ∧ e.name ≠ "getal") : s.Consistent := by
  have ho : s.known["1"]? = some .one := by
    rw [hk, Std.HashMap.getElem?_insert]
    simp
  have hn : s.known["getal"]? = some s.number := by simp [hk]
  refine ⟨hg, ho, hn, ht, fun name k h => ?_⟩
  have hname : name = "1" ∨ name = "getal" := by
    simp only [hk, Std.HashMap.getElem?_insert] at h
    grind
  have hkt : k.TypeKind := by
    cases hname
    case inl h' => exact Option.some.inj (ho.symm.trans (h' ▸ h)) ▸ Term.typeKind_one
    case inr h' => exact Option.some.inj (hn.symm.trans (h' ▸ h)) ▸ ht
  have hne : ∀ p, name ≠ countingTitle p ∧ name ≠ togetherTitle p := by
    cases hname <;> subst name <;> exact ne_title (by decide)
  refine ⟨fun _ _ _ => hkt, fun e hm hn => ?_, fun p hp => absurd hp (hne p).left,
    fun p hp => absurd hp (hne p).right⟩
  cases hname
  case inl h' => exact absurd (hn.trans h') (he e hm).left
  case inr h' => exact absurd (hn.trans h') (he e hm).right

theorem Consistent.kept : Kept Consistent where
  sound hs := by
    refine ⟨hs.graph.sound, hs.one, fun v hv k hk => ?_, fun e he k hk => ?_⟩
    · exact (hs.known _ k hk).node v hv rfl
    · exact (hs.known _ k hk).edge e he rfl
  numbered := Consistent.numbered
  node hs hv hk _ h       := hs.numbered.know h (hs.numbered.fits_node hv hk)
  edge hs he hd hc hk _ h := hs.numbered.know h (hs.numbered.fits_edge he hd hc hk)

end Session

namespace SessionM

open Session

variable {s s' : Session} {x : SessionM α} {P : α → Prop} {f : α → SessionM β}

theorem pathsNamed_gives {origin dest : String} {o t : Term} (hs : s.Consistent)
    (ho : s.known[origin]? = some o) (ht : s.known[dest]? = some t) :
    ∃ ps s', (pathsNamed origin dest).Gives s ps s' ∧ s.Later s' ∧ s'.Consistent ∧
      ps.length = (s.graph.trails origin dest).length ∧
      ∀ p ∈ ps, Term.Leads p o t ∧ ∀ k ∈ p, ∃ d c, k.ElementKind d c := by
  have ⟨ps, s', h, hl, hc, hlen, hall⟩ := pathsNamed_recalls Consistent.kept origin dest hs
  refine ⟨ps, s', h, hl, hc, hlen, fun p hp => ?_⟩
  have ⟨o', t', ho', ht', hp⟩ := hall p hp
  have hoo : o' = o := Option.some.inj (ho'.symm.trans (hl.known _ _ ho))
  have htt : t' = t := Option.some.inj (ht'.symm.trans (hl.known _ _ ht))
  exact hoo ▸ htt ▸ hp

-- The action succeeds in the session, which stays consistent, and gives what is asked for.
def Yields (x : SessionM α) (s : Session) (P : α → Prop) : Prop :=
  ∃ a s', x.Gives s a s' ∧ s.Later s' ∧ s'.Consistent ∧ P a

theorem Yields.bind {Q : β → Prop} (h : x.Yields s P)
    (hf : ∀ a s', s.Later s' → s'.Consistent → P a → (f a).Yields s' Q) : (x >>= f).Yields s Q := by
  have ⟨a, s₁, hx, hl, hc, ha⟩ := h
  have ⟨b, s₂, hb, hl', hc', hq⟩ := hf a s₁ hl hc ha
  exact ⟨b, s₂, hx.bind hb, hl.trans hl', hc', hq⟩

theorem yields_pure {a : α} (hs : s.Consistent) (h : P a) : (pure a : SessionM α).Yields s P :=
  ⟨a, s, gives_done, .refl s, hs, h⟩

theorem yields_ofExcept {e : Except Failure α} {a : α} (hs : s.Consistent) (he : e = .ok a)
    (h : P a) : (ofExcept e : SessionM α).Yields s P :=
  ⟨a, s, gives_ofExcept.mpr ⟨he, rfl⟩, .refl s, hs, h⟩

theorem Yields.imp {Q : α → Prop} (h : x.Yields s P) (hpq : ∀ a, P a → Q a) : x.Yields s Q :=
  have ⟨a, s', hx, hl, hc, ha⟩ := h
  ⟨a, s', hx, hl, hc, hpq a ha⟩

-- As `Yields.bind`, where what follows has been moved into the branches.
theorem Yields.bind_ite {p : Prop} [Decidable p] {y : SessionM α} {Q : β → Prop}
    (h : Yields (if p then x else y) s P)
    (hf : ∀ a s', s.Later s' → s'.Consistent → P a → (f a).Yields s' Q) :
    Yields (if p then x >>= f else y >>= f) s Q := by
  split at h
  case isTrue hp  => exact if_pos hp ▸ h.bind hf
  case isFalse hp => exact if_neg hp ▸ h.bind hf

theorem Yields.map {g : α → β} {P : β → Prop} (h : x.Yields s fun a => P (g a)) :
    (g <$> x).Yields s P :=
  have ⟨a, s', hx, hl, hc, ha⟩ := h
  ⟨g a, s', hx.map, hl, hc, ha⟩

theorem Yields.tryCatch {handle : Failure → SessionM α} (h : x.Yields s P) :
    (tryCatch x handle).Yields s P :=
  have ⟨a, s', hx, hr⟩ := h
  ⟨a, s', hx.tryCatch, hr⟩

theorem yields_mapM {R : α → β → Prop} {as : List α} (hs : s.Consistent)
    (h : ∀ a ∈ as, ∀ s', s.Later s' → s'.Consistent → (f a).Yields s' (R a)) :
    (as.mapM f).Yields s (List.Forall₂ R as) := by
  induction as generalizing s
  case nil => exact yields_pure hs .nil
  case cons a as ih =>
    rw [List.mapM_cons]
    refine (h a (by simp) s (.refl s) hs).bind fun b s₁ hl hc hb => ?_
    refine (ih hc fun a' ha' s' hl' => h a' (by simp [ha']) s' (hl.trans hl')).bind ?_
    exact fun bs s₂ _ hc' hbs => yields_pure hc' (.cons hb hbs)

end SessionM
end Inquiry
