import Mathlib
import Inquiry.Proofs.Session.Naming
import Inquiry.Proofs.Session.Paths

/-!
What is asked for in a session, call after call. Two kinds of one name that are handed out are the
same, unless the graph has a second type with a single member or does not tell of the variable that
takes the objects of a type together.
-/

namespace Inquiry

open List Term KindClass SessionM

namespace Term

def withEnds : Term → List Term
  | kind h ty d c s => kind h ty d c s :: (d.toList ++ c.toList)
  | _               => []

def IsObjectType (k : Term) : Prop :=
  ∃ h ty d c s, k = .kind h ty d c s ∧ h.cls = .objectType

end Term

-- What may be asked for.
inductive Session.Call where
  | kindNamed (name : String)
  | kindOfSort (name sort : String)
  | paths (t u : Term)
  | origin (t u : Term)
  | counting (p : Term)
  | together (p : Term)

namespace Session.Call

def run : Call → SessionM (List Term)
  | kindNamed name       => return [← SessionM.kindNamed name]
  | kindOfSort name sort => return [← SessionM.kindOfSort name sort]
  | paths t u            => return (← SessionM.paths t u).flatten
  | origin t u           => return [← SessionM.origin t u]
  | counting p           => return [← SessionM.counting p]
  | together p           => return [← SessionM.together p]

-- Kinds that are asked about have been handed out before.
def Takes (ks : List Term) : Call → Prop
  | kindNamed _ | kindOfSort .. | paths .. => True
  | origin t u                             => (t = .nothing ∨ t ∈ ks) ∧ (u = .nothing ∨ u ∈ ks)
  | counting p | together p                => p ∈ ks ∧ p.IsObjectType

-- The kinds that a call hands out, by themselves and as the ends of others.
def handsOut : Except Failure (List Term) → List Term
  | .ok ks   => ks.flatMap withEnds
  | .error _ => []

end Session.Call

-- An edge tells of the variable that takes all objects of the type together, or it is known.
def Session.TakesTogether (s : Session) (p : String) : Prop :=
  (∃ k, k ≠ .nothing ∧ s.known[togetherTitle p]? = some k) ∨
    ∃ e ∈ s.graph.edges, e.name = togetherTitle p ∧ ∃ c, Graph.NamesElement e.sort c

namespace SessionM

open Session

-- The states of a session that began in `s₀`, with the kinds that were handed out on the way. Calls
-- may fail.
inductive Run (s₀ : Session) : Session → List Term → Prop
  | start : Run s₀ s₀ []
  | call {s ks} (c : Call) : (Run s₀ s ks) → (c.Takes ks) →
    Run s₀ (c.run.runIn s).2 (ks ++ Call.handsOut (c.run.runIn s).1)

def OneKindPerName (ks : List Term) : Prop :=
  ∀ k ∈ ks, ∀ l ∈ ks, k.printed = l.printed → k.equals l

variable {s₀ s s' : Session} {ks : List Term} {g : Graph} {m : Model}

theorem Run.gives {c : Call} {as : List Term} (h : Run s₀ s ks) (ht : c.Takes ks)
    (hc : c.run.Gives s as s') : Run s₀ s' (ks ++ as.flatMap withEnds) := by
  have hr := h.call c ht
  rwa [hc] at hr

structure Ran (g : Graph) (s₀ : Session) (s : Session) (ks : List Term) : Prop where
  named       : Named g (fun name c => c.isType → g.Tells name c) s
  grows       : s₀.Grows s
  objectTypes : ∀ k ∈ s.objectTypes, k ≠ .nothing → s.Met k
  handed      : ∀ k ∈ ks, k ≠ .nothing ∧ s.Met k

section Named

variable {P : String → KindClass → Prop} {name : String} {k : Term}

-- Only types with a single member have names that are not their own.
theorem printed_of_known (hg : ∀ v ∈ g.nodes, v.sort = "One" → v.name = "1" ∨ v.name = "getal")
    (hs : Named g (fun name c => c.isType → g.Tells name c) s) (hk : s.known[name]? = some k)
    (hn : k ≠ .nothing) : k.printed = name := by
  cases hs.known name k hk hn
  case kind h ty d c hna hp _ _ =>
    rw [printed, hna]
    split
    case isFalse => rfl
    case isTrue ho =>
      obtain ⟨_, hq⟩ | ⟨v, hv, rfl, hl⟩ | ⟨he, _⟩ := hp (by simp [ho, isType])
      · simp [ho] at hq
      · obtain h1 | hget := hg v hv (by rw [ho] at hl; exact (label_of_ofLabel? hl).symm)
        · exact h1.symm
        · obtain ⟨h', hnum, hq⟩ := hs.number
          rw [hget, hs.getal, hnum] at hk
          injection hk with hk
          injection hk with hk
          simp [← hk, hq] at ho
      · simp [ho, isElement, isType] at he

theorem met_withEnds {a : Term} (hs : Named g P s) (ha : a = .nothing ∨ s.Met a)
    (hk : k ∈ a.withEnds) : k ≠ .nothing ∧ s.Met k := by
  obtain rfl | ⟨name, ha⟩ := ha
  case inl => simp [withEnds] at hk
  case inr =>
    have hn : a ≠ .nothing := by
      rintro rfl
      simp [withEnds] at hk
    cases hs.known name a ha hn
    case kind _ _ _ he =>
      obtain rfl | hk := mem_cons.mp hk
      · exact ⟨hn, name, ha⟩
      · exact he k hk

end Named

section Run

theorem Ran.objectType (hr : Ran g s₀ s ks) {p : Term} (hp : p ∈ ks) (ht : p.IsObjectType) :
    ∃ v ∈ g.nodes, v.sort = "ObjectType" ∧ v.name ≠ "getal" ∧ p.printed = v.name := by
  obtain ⟨hn, name, hk⟩ := hr.handed p hp
  obtain ⟨h, ty, d, c, st, rfl, ho⟩ := ht
  cases hr.named.known name _ hk hn
  case kind hna htl _ _ =>
    obtain ⟨_, hq⟩ | ⟨v, hv, rfl, hl⟩ | ⟨he, _⟩ := htl (by simp [ho, isType])
    · simp [ho] at hq
    · refine ⟨v, hv, ?_, fun hget => ?_, ?_⟩
      · rw [ho] at hl
        exact (label_of_ofLabel? hl).symm
      · obtain ⟨h', hnum, hq⟩ := hr.named.number
        rw [hget, hr.named.getal, hnum] at hk
        injection hk with hk
        injection hk with hk
        simp [← hk, hq] at ho
      · simp [printed, hna, ho]
    · simp [ho, isElement, isType] at he

theorem Ran.oneKindPerName (hr : Ran g s₀ s ks)
    (hone : ∀ v ∈ g.nodes, v.sort = "One" → v.name = "1" ∨ v.name = "getal") :
    OneKindPerName ks := by
  intro k hk l hl hp
  have ⟨hn, name, hkn⟩ := hr.handed k hk
  have ⟨hn', name', hln⟩ := hr.handed l hl
  rw [printed_of_known hone hr.named hkn hn, printed_of_known hone hr.named hln hn'] at hp
  obtain rfl : k = l := Option.some.inj (hkn.symm.trans (hp ▸ hln))
  cases hr.named.known name k hkn hn
  exact equals_kind_self ..

variable (hg : g.Distinct) (h₀ : s₀.graph = g)
  (hall : ∀ v ∈ g.nodes, v.sort = "ObjectType" → v.name = "getal" ∨ s₀.TakesTogether v.name)

include hg h₀ hall

theorem Ran.passes (hr : Ran g s₀ s ks) {c : Call} (ht : c.Takes ks) :
    c.run.Passes (Named g fun name c => c.isType → g.Tells name c) Grows s fun s' as =>
      ∀ k ∈ as, k = .nothing ∨ s'.Met k := by
  have hP : g.Gives fun name c => c.isType → g.Tells name c :=
    ⟨fun v hv c hc _ => hg.gives.node v hv c hc, fun e he c hc _ => hg.gives.edge e he c hc⟩
  have hv (name : String) (h : variable.isType) : g.Tells name .variable := nomatch h
  have hs := hr.named
  have rc := recalling hg hP
  match c, ht with
  | .kindNamed name, _ =>
    refine ((rc.kindNamed name hs).weaken Recalls.grows).bind fun k s' hs' _ hk => ?_
    exact passes_pure hs' (by simpa using hk.right.symm.imp_right fun hk => ⟨name, hk⟩)
  | .kindOfSort name sort, _ =>
    refine ((rc.kindOfSort name sort hs).weaken Recalls.grows).bind fun k s' hs' _ hk => ?_
    exact passes_pure hs' (by simpa using hk.right.symm.imp_right fun hk => ⟨name, hk⟩)
  | .paths t u, _ =>
    refine ((rc.paths t u hs).weaken Recalls.grows).bind fun ps s' hs' _ hps => passes_pure hs' ?_
    intro k hk
    have ⟨p, hp, hk⟩ := mem_flatten.mp hk
    exact .inr (hps.right p hp k hk)
  | .origin t u, ⟨ht, hu⟩ =>
    have met {t : Term} (h : t = .nothing ∨ t ∈ ks) {s' : Session} (hgr : s.Grows s') :
        t = .nothing ∨ s'.Met t :=
      h.imp_right fun h => (hr.handed t h).right.grows (hr.handed t h).left hgr
    refine ((rc.origin t u hs).weaken Recalls.grows).bind fun k s' hs' hgr hk => passes_pure hs' ?_
    intro k' hk'
    obtain rfl := mem_singleton.mp hk'
    obtain hk | rfl | rfl | ⟨s₁, hr₁, hk⟩ := hk.right
    · exact .inl hk
    · exact met ht hgr
    · exact met hu hgr
    · by_cases hn : k' = .nothing
      · exact .inl hn
      · exact .inr ((hr.objectTypes k' (hr₁.objectTypes ▸ hk) hn).grows hn hgr)
  | .counting p, ⟨hp, _⟩ =>
    have ⟨hn, hm⟩ := hr.handed p hp
    refine (passes_counting hg hP hv hs hm hn).bind fun k s' hs' _ hk => ?_
    exact passes_pure hs' (by simpa using .inr hk)
  | .together p, ⟨hp, ho⟩ =>
    have ⟨hn, hm⟩ := hr.handed p hp
    have ⟨v, hvm, hvs, hvg, hvp⟩ := hr.objectType hp ho
    refine (passes_together hg hP hv hs hm hn).bind fun k s' hs' _ hk => passes_pure hs' ?_
    intro k' hk'
    obtain rfl := mem_singleton.mp hk'
    refine .inr (hk.resolve_right fun ⟨hu, hne⟩ => ?_)
    rw [hvp] at hu hne
    obtain ⟨l, hl, hlk⟩ | ⟨e, he, hen, hb⟩ := (hall v hvm hvs).resolve_left hvg
    · have hlk := hr.grows.known _ _ hl hlk
      obtain hu | hu := hu
      · simp [hlk] at hu
      · simp [hlk, hl] at hu
    · exact hne e (h₀ ▸ he) hen hb

theorem Ran.call (hr : Ran g s₀ s ks) {c : Call} (ht : c.Takes ks) :
    Ran g s₀ (c.run.runIn s).2 (ks ++ Call.handsOut (c.run.runIn s).1) := by
  have ⟨hs, hgr, hq⟩ := hr.passes hg h₀ hall ht
  refine ⟨hs, hr.grows.trans hgr, fun k hk hn => ?_, fun k hk => ?_⟩
  · exact (hr.objectTypes k (hgr.objectTypes ▸ hk) hn).grows hn hgr
  · obtain hk | hk := mem_append.mp hk
    · have ⟨hn, hm⟩ := hr.handed k hk
      exact ⟨hn, hm.grows hn hgr⟩
    · cases ho : (c.run.runIn s).1
      case error f => simp [ho, Call.handsOut] at hk
      case ok as   =>
        rw [ho] at hk
        have ⟨a, ha, hk⟩ := mem_flatMap.mp hk
        exact met_withEnds hs (hq as ho a ha) hk

theorem Run.ran (h : Run s₀ s ks) (hr : Ran g s₀ s₀ []) : Ran g s₀ s ks := by
  induction h
  case start        => exact hr
  case call c _ ht ih => exact ih.call hg h₀ hall ht

end Run

section Meeting

variable {P : String → KindClass → Prop}

theorem kindNamed_node (hg : g.Distinct) (hP : g.Gives P) (hs : Named g P s) {v : Node}
    (hv : v ∈ g.nodes) : ∃ k s', (kindNamed v.name).Gives s k s' ∧ Named g P s' ∧
      s'.known[v.name]? = some k ∧ ∀ name ≠ v.name, s'.known[name]? = s.known[name]? := by
  cases h : s.known[v.name]?
  case some k => exact ⟨k, s, kindNamed_of_known h, hs, h, fun _ _ => rfl⟩
  case none =>
    have ⟨k, s', hk, hs', _, hkn, hne⟩ := restore_named hg hP v.altname hv hs
    have hf : s.graph.node? v.name = some v := by
      rw [hs.graph]
      cases hf : g.node? v.name
      case none   => exact absurd hf (Graph.node?_ne_none hv)
      case some w =>
        have hw : w.name = v.name := by simpa using Array.find?_some hf
        rw [hg.node_eq (Array.mem_of_find?_eq_some hf) hv hw]
    refine ⟨k, s', gives_get_bind.mpr ?_, hs', hkn, hne⟩
    simp only [h]
    refine gives_get_bind.mpr ?_
    simp only [hf, Option.isSome_some, if_true]
    refine gives_get_bind.mpr ?_
    simp only [hf]
    exact hk

theorem kindOfSort_of_known {name sort : String} {k : Term} (h : s.known[name]? = some k) :
    (kindOfSort name sort).Gives s k s := by
  rw [kindOfSort]
  exact gives_get_bind.mpr (by simp [h])

theorem restore_unbuilt (hg : g.Distinct) (hP : g.Gives P) (hs : Named g P s) {e : Edge}
    (he : e ∈ g.edges) (hk : s.known[e.name]? = none) (hb : ¬∃ c, Graph.NamesElement e.sort c) :
    ∃ s', (restore (.ofEdge e)).Gives s .nothing s' := by
  obtain ⟨v, hv, hvn, hvs⟩ := hg.source e he
  obtain ⟨w, hw, hwn, hws⟩ := hg.target e he
  obtain ⟨d, s₁, hd, hs₁, _⟩ := restore_named hg hP none hv hs
  obtain ⟨d', s₂, hd', _⟩ := restore_named hg hP none hw hs₁
  rw [hvn, hvs] at hd
  rw [hwn, hws] at hd'
  obtain ⟨s', _, hr⟩ := restore_unmade_edge hk (hg.elements e he) hb hd hd'
  exact ⟨_, hr⟩

theorem kindOfSort_unbuilt (hg : g.Distinct) (hP : g.Gives P) (hs : Named g P s) {name : String}
    (hu : s.Unknown name) (hb : ∀ e ∈ g.edges, e.name = name → ¬∃ c, Graph.NamesElement e.sort c) :
    ∃ s', (kindOfSort name "Variable").Gives s .nothing s' := by
  obtain hu | hu := hu
  case inr => exact ⟨s, kindOfSort_of_known hu⟩
  case inl =>
    cases hf : g.edge? name
    case none =>
      refine ⟨s, gives_get_bind.mpr ?_⟩
      simp only [hu]
      exact gives_get_bind.mpr (by simp [hs.graph, hf])
    case some e =>
      have he := Array.mem_of_find?_eq_some hf
      obtain rfl : e.name = name := by simpa using Array.find?_some hf
      have ⟨s', hs'⟩ := restore_unbuilt hg hP hs he hu (hb e he rfl)
      refine ⟨s', gives_get_bind.mpr ?_⟩
      simp only [hu]
      exact gives_get_bind.mpr (by simpa [hs.graph, hf] using hs')

-- The variable that takes all objects together is made twice when it is new.
theorem together_new {p : Term} {s₁ : Session} (hp : p.TypeKind)
    (h : (kindOfSort (togetherTitle p.printed) "Variable").Gives s .nothing s₁) :
    ∃ k l s', (together p).Gives s k s' ∧ s'.known[togetherTitle p.printed]? = some l ∧
      l ≠ .nothing ∧ k ∈ k.withEnds ∧ l ∈ l.withEnds ∧ k.printed = l.printed ∧ ¬k.equals l := by
  let spec : KindSpec := { cls := .variable, name := togetherTitle p.printed, domain := p.present,
                           codomain := some .one }
  have made (n : Nat) : ∃ sort ty d, Term.make n spec =
      .ok (.kind (spec.head n sort) ty d spec.codomain none) := by
    have ⟨k, hk, _⟩ := make_element n spec rfl rfl rfl hp.present rfl hp typeKind_one
      (by simp [spec])
    obtain ⟨sort, ty, d, rfl, _⟩ := make_element_shape hk rfl rfl
    exact ⟨sort, ty, d, hk⟩
  have ⟨sort, ty, d, hl⟩ := made s₁.next
  have ⟨sort', ty', d', hk⟩ := made s₁.numbered.next
  refine ⟨_, _, _, Gives.bind h (Gives.bind (gives_make hl) (Gives.bind (gives_know ..)
    (gives_make hk))), known_know .., by simp, by simp [withEnds], by simp [withEnds], rfl, ?_⟩
  simp [equals, KindSpec.head, Session.numbered, spec, Op.serials]

end Meeting

theorem togetherTitle_ne (p : String) : togetherTitle p ≠ p := by
  intro h
  have hl : (togetherTitle p).toList.length = p.toList.length + 6 := by simp [togetherTitle]
  rw [h] at hl
  omega

theorem kind_of_node (cls : KindClass) (hg : g.Distinct) (hs : Named g g.Tells s) {v : Node}
    {k : Term} (hv : v ∈ g.nodes) (hl : ofLabel? v.sort = some cls)
    (hb : built cls) (hget : v.name ≠ "getal") (hk : s.known[v.name]? = some k) :
    ∃ h ty d c, k = .kind h ty d c none ∧ h.cls = cls ∧
      (h.name = if cls = .one then "1" else v.name) ∧ (v.name ≠ "1" → ∃ n, h.id = .fresh n) := by
  have hn : k ≠ .nothing := by
    rintro rfl
    exact hs.built v.name (.inl ⟨v, hv, rfl, cls, hl, hg.types v hv cls hl, hb⟩) hk
  cases hs.known v.name k hk hn
  case kind h ty d c hna htl hid _ =>
    obtain ⟨hv', _⟩ | ⟨w, hw, hwn, hwl⟩ | ⟨_, hne⟩ := htl
    · exact absurd hv' hget
    · obtain rfl := hg.node_eq hw hv hwn
      obtain rfl := Option.some.inj (hl.symm.trans hwl)
      exact ⟨h, ty, d, c, rfl, rfl, hna, hid⟩
    · exact absurd rfl (hne v hv)

theorem exists_two_of_one (hm : m.Distinct) (h₀ : Named m.graph m.graph.Tells s₀) {v : Node}
    (hv : v ∈ m.graph.nodes) (ho : v.sort = "One") (h1 : v.name ≠ "1") (hget : v.name ≠ "getal") :
    ∃ s ks, Run s₀ s ks ∧ ¬OneKindPerName ks := by
  have ⟨k, s, hk, hs, hkn, _⟩ := kindNamed_node hm.graph hm.graph.gives h₀ hv
  have ⟨h, ty, d, c, hkk, hcls, hname, hid⟩ :=
    kind_of_node .one hm.graph hs hv (by rw [ho]; rfl) rfl hget hkn
  subst hkk
  have ⟨n, hid⟩ := hid h1
  have hr : Run s₀ s _ := Run.start.gives (c := .kindNamed v.name) trivial
    (Gives.bind hk gives_done)
  have hr := hr.gives (c := .kindNamed "1") trivial
    (Gives.bind (kindNamed_of_known hs.one) gives_done)
  refine ⟨_, _, hr, fun hone => ?_⟩
  have he := hone (.kind h ty d c none) (by simp [withEnds]) .one
    (by simp [Term.withEnds, Term.one]) (by simp [Term.printed, Term.one, hname])
  simp [Term.equals, Term.one, hid] at he

theorem exists_two_of_together (hm : m.Distinct) (h₀ : Named m.graph m.graph.Tells s₀) {v : Node}
    (hv : v ∈ m.graph.nodes) (ho : v.sort = "ObjectType") (hget : v.name ≠ "getal")
    (ht : ¬s₀.TakesTogether v.name) : ∃ s ks, Run s₀ s ks ∧ ¬OneKindPerName ks := by
  have ⟨p, s, hk, hs, hkn, hne⟩ := kindNamed_node hm.graph hm.graph.gives h₀ hv
  have ⟨h, ty, d, c, hkk, hcls, hname, _⟩ :=
    kind_of_node .objectType hm.graph hs hv (by rw [ho]; rfl) rfl hget hkn
  have hp : p.printed = v.name := by simp [hkk, printed, hname]
  have hpt : p.TypeKind := ⟨h, ty, d, c, none, hkk, by rw [hcls]; rfl⟩
  have hpo : p.IsObjectType := ⟨h, ty, d, c, none, hkk, hcls⟩
  have hu : s.Unknown (togetherTitle v.name) := by
    rw [Unknown, hne _ (togetherTitle_ne v.name)]
    cases hk : s₀.known[togetherTitle v.name]?
    case none   => exact .inl rfl
    case some l =>
      by_cases hl : l = .nothing
      · exact .inr (hl ▸ rfl)
      · exact absurd (.inl ⟨l, hl, hk⟩) ht
  have hb : ∀ e ∈ m.graph.edges, e.name = togetherTitle v.name →
      ¬∃ c, Graph.NamesElement e.sort c :=
    fun e he hn hc => ht (.inr ⟨e, h₀.graph ▸ he, hn, hc⟩)
  have ⟨s₁, hs₁⟩ := kindOfSort_unbuilt hm.graph hm.graph.gives hs hu hb
  obtain ⟨k, l, s₂, hk₂, hl, hln, hkm, hlm, hkl, hne⟩ := together_new hpt (hp ▸ hs₁)
  have hl' : (together p).Gives s₂ l s₂ := by
    refine Gives.bind (kindOfSort_of_known hl) ?_
    split
    case h_1 => exact absurd rfl hln
    case h_2 => exact gives_done
  have hpm : p ∈ p.withEnds := by simp [hkk, withEnds]
  have hr : Run s₀ s _ := Run.start.gives (c := .kindNamed v.name) trivial
    (Gives.bind hk gives_done)
  have hr := hr.gives (c := .together p) ⟨by simp [hpm], hpo⟩
    (Gives.bind hk₂ gives_done)
  have hr := hr.gives (c := .together p) ⟨by simp [hpm], hpo⟩
    (Gives.bind hl' gives_done)
  exact ⟨_, _, hr, fun hone => hne (hone k (by simp [hkm]) l (by simp [hlm]) hkl)⟩

-- Whatever is asked for, a name stands for one kind; for that the graph must not have a second type
-- with a single member, and it must tell, for each of its object types, of the variable that takes
-- all objects together.
theorem one_kind_per_name_iff (hm : m.Distinct) (h₀ : Session.start m = .ok s₀) :
    (∀ s ks, Run s₀ s ks → OneKindPerName ks) ↔
      (∀ v ∈ m.graph.nodes, v.sort = "One" → v.name = "1" ∨ v.name = "getal") ∧
      ∀ v ∈ m.graph.nodes, v.sort = "ObjectType" → v.name = "getal" ∨ s₀.TakesTogether v.name := by
  have ⟨hn, ho⟩ := start_named hm h₀
  constructor
  case mp =>
    intro h
    refine ⟨fun v hv hs => ?_, fun v hv hs => ?_⟩
    · by_contra hne
      have ⟨h1, hget⟩ := not_or.mp hne
      have ⟨s, ks, hr, hone⟩ := exists_two_of_one hm hn hv hs h1 hget
      exact hone (h s ks hr)
    · by_contra hne
      have ⟨hget, ht⟩ := not_or.mp hne
      have ⟨s, ks, hr, hone⟩ := exists_two_of_together hm hn hv hs hget ht
      exact hone (h s ks hr)
  case mpr =>
    intro ⟨hone, hall⟩ s ks hr
    have hran : Ran m.graph s₀ s₀ [] :=
      ⟨hn.imp fun _ _ h _ => h, .refl s₀, fun k hk _ => ho k hk, by simp⟩
    exact (hr.ran hm.graph hn.graph hall hran).oneKindPerName hone

namespace Dwelling

def persons : Model where
  nodes := [objectType "persoon"]

def gathered : Model where
  nodes := [objectType "persoon"]
  edges := [{ name := "alle(persoon)", sort := "Variable", domain := ⟨"persoon", "ObjectType"⟩,
              codomain := ⟨"1", "One"⟩ }]

theorem persons_distinct : persons.Distinct :=
  ⟨⟨by decide, by decide, by decide, by decide, by decide⟩, by simp [persons]⟩

theorem gathered_distinct : gathered.Distinct :=
  ⟨⟨by decide, by decide, by decide, by decide, by decide⟩, by simp [gathered]⟩

theorem persons_start : ∃ s, Session.start persons = .ok s :=
  start_of_fit ⟨regular_of_sorts (by decide) (by decide) (by decide), by decide, by simp [persons]⟩
    rfl

theorem gathered_start : ∃ s, Session.start gathered = .ok s :=
  start_of_fit ⟨regular_of_sorts (by decide) (by decide) (by decide), by decide, by simp [gathered]⟩
    rfl

theorem gathered_persons_are_one : persons.Distinct ∧ gathered.Distinct ∧
    (∃ s₀, Session.start persons = .ok s₀ ∧ ¬∀ s ks, Run s₀ s ks → OneKindPerName ks) ∧
    ∃ s₀, Session.start gathered = .ok s₀ ∧ ∀ s ks, Run s₀ s ks → OneKindPerName ks := by
  refine ⟨persons_distinct, gathered_distinct, ?_, ?_⟩
  · obtain ⟨s₀, h₀⟩ := persons_start
    have hu : s₀.known[togetherTitle "persoon"]? = none :=
      start_unknown persons_distinct rfl h₀ (by decide) (by decide) (by decide)
    have hg := (start_named persons_distinct h₀).left.graph
    refine ⟨s₀, h₀, fun h => ?_⟩
    obtain ⟨_, hall⟩ := (one_kind_per_name_iff persons_distinct h₀).mp h
    have hv : objectType "persoon" ∈ persons.graph.nodes := Array.mem_def.mpr (.tail _ (.head _))
    obtain ⟨_, _, hk⟩ | ⟨e, he, _⟩ := (hall _ hv rfl).resolve_left (by decide)
    · simp [objectType, hu] at hk
    · simp [hg, persons, Model.graph, Graph.addNode] at he
  · obtain ⟨s₀, h₀⟩ := gathered_start
    have hg := (start_named gathered_distinct h₀).left.graph
    refine ⟨s₀, h₀, (one_kind_per_name_iff gathered_distinct h₀).mpr ⟨by decide, fun v hv hs => ?_⟩⟩
    have hp : ∀ v ∈ gathered.graph.nodes, v.sort = "ObjectType" → v.name = "persoon" := by decide
    have he : gathered.graph.edges[0]? = some ⟨"alle(persoon)", "Variable", 1, 0,
      ⟨"persoon", "ObjectType"⟩, ⟨"1", "One"⟩, none, none⟩ := rfl
    rw [hp v hv hs]
    exact .inr (.inr ⟨_, hg ▸ Array.mem_of_getElem? he, rfl, .variable, rfl, rfl, rfl⟩)

end Dwelling

end SessionM
end Inquiry
