import Mathlib
import Inquiry.Proofs.Explanation.Conditions
import Inquiry.Proofs.Request.Total
import Inquiry.Proofs.Term.Pairing

/-!
An explanation tells exactly what was asked: the dimensions of a count or a total are the variables
that its paths end in, each once, and its conditions those of the selection.
-/

namespace Inquiry

open List

-- Object types are reached from object types only, and over relations.
structure Graph.Relational (g : Graph) : Prop where
  between : ∀ e ∈ g.edges, e.domain.sort = "ObjectType" → e.codomain.sort = "ObjectType" →
    (KindClass.ofLabel? e.sort).any KindClass.isRelation
  into    : ∀ e ∈ g.edges, e.codomain.sort = "ObjectType" → e.domain.sort = "ObjectType"

namespace Graph

variable {g : Graph} {dest : String} {v : Nat} {es : List Edge} {e : Edge}

theorem Consistent.codomain_eq_domain (hg : g.Consistent) {e' : Edge} (he : e ∈ g.edges)
    (he' : e' ∈ g.edges) (h : e.target = e'.source) : e.codomain.sort = e'.domain.sort := by
  obtain ⟨a, ha, _, hs⟩ := hg.target e he
  obtain ⟨b, hb, _, hs'⟩ := hg.source e' he'
  obtain rfl := Option.some.inj (ha.symm.trans (h ▸ hb))
  exact hs.symm.trans hs'

-- The induction is on the trail: what comes before an object type is one.
theorem Relational.trail (hr : g.Relational) (hg : g.Consistent)
    (hd : ∀ a ∈ g.nodes, a.name = dest → a.sort = "ObjectType") (h : g.Trail dest v es) :
    (∀ e ∈ es, (KindClass.ofLabel? e.sort).any KindClass.isRelation) ∧
      ∃ e ∈ g.edges, e.source = v ∧ e.domain.sort = "ObjectType" := by
  induction h
  case single e he hn =>
    obtain ⟨a, ha, _, hs⟩ := hg.target e he
    have hc : e.codomain.sort = "ObjectType" := by
      refine hs ▸ hd a (Array.mem_of_getElem? ha) ?_
      simpa [nameOf, ha] using hn
    exact ⟨by simpa using hr.between e he (hr.into e he hc) hc, e, he, rfl, hr.into e he hc⟩
  case cons e es he _ ih =>
    obtain ⟨hes, e', he', hs, ht⟩ := ih
    have hc : e.codomain.sort = "ObjectType" :=
      (hg.codomain_eq_domain he he' hs.symm).trans ht
    refine ⟨forall_mem_cons.mpr ⟨?_, hes⟩, e, he, rfl, hr.into e he hc⟩
    exact hr.between e he (hr.into e he hc) hc

end Graph

namespace Session

-- An object type that is one in the graph as well.
structure OfObjectType (s : Session) (t : Term) : Prop extends s.HasObjectType t where
  node : ∀ a ∈ s.graph.nodes, a.name = t.printed → a.sort = "ObjectType"

variable {s s₁ s₂ : Session}

theorem OfObjectType.overRelations {t : Term} (h : s.OfObjectType t) (hr : s.graph.Relational)
    (hg : s.graph.Consistent) (o : Term) : s.OverRelations o t := by
  intro es hes
  obtain ⟨_, _, ht⟩ := Graph.trail_of_mem_trails hes
  exact (hr.trail hg h.node ht).left

theorem Onward.trans (h : s.Onward s₁) (h' : s₁.Onward s₂) : s.Onward s₂ :=
  ⟨h'.faithful, h.later.trans h'.later, h.next.trans h'.next⟩

end Session

namespace Explanation

open Term Session SessionM Request

variable {s₀ s : Session} {t u v pivot target split selection : Term} {ps ps' led : List Path}
variable {numbers : List Term}

open Classical in
theorem apart_dimensions (s : Session) :
    Apart Dimension.text Dimension.alike fun d => s.HasVariable d.var where
  text d hd := ⟨"per " ++ d.var.printed, by simp [Dimension.text, hd.name_eq]⟩
  alike d e hd he := by
    rw [Dimension.alike, sameName_eq hd.name_eq he.name_eq]
    refine congrArg Except.ok (Bool.eq_iff_iff.mpr ?_)
    rw [beq_iff_eq, decide_eq_true_iff]
    refine ⟨fun h => ?_, fun h => h ▸ rfl⟩
    have hv := hd.eq_of_printed he.toHasElement h
    cases d
    cases e
    exact congrArg Dimension.mk hv

theorem dimensions_aggregation {n : Nat} {ty : Option Term} {w : Term} {vs : List Term}
    (h : ∀ u, u ∈ told w ∧ isCountedVariable u ↔ u ∈ vs) (hv : ∀ v ∈ vs, s.HasVariable v) :
    ∃ ds, dimensions (.app n .aggregation [v, w] ty) = .ok ds ∧ (ds.map (·.var)).Nodup ∧
      ∀ u, u ∈ ds.map (·.var) ↔ u ∈ vs := by
  have hm (u : Term) : u ∈ (told w).filter isCountedVariable ↔ u ∈ vs :=
    mem_filter.trans (h u)
  have hp : ∀ d ∈ ((told w).filter isCountedVariable).map Dimension.mk, s.HasVariable d.var := by
    intro d hd
    obtain ⟨u, hu, rfl⟩ := mem_map.mp hd
    exact hv u ((hm u).mp hu)
  obtain ⟨ds, hds, hn, hmem⟩ := (apart_dimensions s).distinct_members hp
  refine ⟨ds, ?_, ?_, fun u => ?_⟩
  · simpa [dimensions, dimensionVariables, filter_leaves] using hds
  · refine List.Nodup.map_on (fun d _ e _ he => ?_) hn
    cases d
    cases e
    exact congrArg Dimension.mk he
  · rw [← hm u, mem_map]
    constructor
    · rintro ⟨d, hd, rfl⟩
      obtain ⟨u, hu, rfl⟩ := mem_map.mp ((hmem d).mp hd)
      exact hu
    · exact fun hu => ⟨⟨u⟩, (hmem _).mpr (mem_map_of_mem hu), rfl⟩

theorem toldAlong_eq_heads (hl : s₀.Led pivot target split led)
    (ht : s₀.OverRelations pivot target) (hs : split ≠ .nothing → s₀.OverRelations pivot split)
    (hd : Forall₂ (Extended s₀) ps ps') : toldAlong (led ++ ps') = ps'.flatMap Path.heads := by
  have hled : toldAlong led = [] := by
    refine flatMap_eq_nil_iff.mpr fun p hp => ?_
    obtain hp | ⟨hn, hp⟩ := hl.each p hp
    · exact hp.told_eq ht
    · exact hp.told_eq (hs hn)
  have hdims : toldAlong ps' = ps'.flatMap Path.heads := by
    refine flatMap_congr fun p hp => ?_
    obtain ⟨_, _, h⟩ := exists_of_mem_right hd hp
    exact h.told
  rw [toldAlong, flatMap_append]
  exact (congrArg₂ _ hled hdims).trans (nil_append _)

theorem told_of_elements {ks : List Term} (h : Applied .composition ks v)
    (hk : ∀ k ∈ ks, ∃ d c, k.ElementKind d c) : ∀ u ∈ told v, u.isVariable := by
  intro u hu
  rw [told_applied (by simp) h] at hu
  obtain ⟨k, hm, hu⟩ := mem_flatMap.mp hu
  obtain ⟨_, _, hk⟩ := hk k hm
  exact isVariable_of_told (op?_of_elementKind hk) hu

-- A request for a count or a total, in a session that is faithful to a graph where relations lead
-- to object types. The numbers are compositions of elements.
structure Asked (s : Session) (pivot target split : Term) (ps : List Path) (numbers : List Term) :
    Prop where
  session    : s.Faithful
  graph      : s.graph.Relational
  pivot      : s.HasObjectType pivot
  target     : s.OfObjectType target
  split      : split = .nothing ∨ s.OfObjectType split
  dimensions : ∀ p ∈ ps, s.DimensionPath p
  numbers    : ∀ v ∈ numbers, ∃ ks, Applied .composition ks v ∧ ∀ k ∈ ks, ∃ d c, k.ElementKind d c

-- There is no selection, or it has been made of paths to variables; then the session went on.
inductive SelectedIn (s₀ : Session) (pivot : Term) : Term → Session → Prop
  | all {s' : Session} : (s₀.Onward s') → SelectedIn s₀ pivot .nothing s'
  | some {es ms u s₁ s'} : (ConditionPaths s₀ ms es) → ((selectionOf es ms pivot).Gives s₀ u s₁) →
    (s₁.Onward s') → SelectedIn s₀ pivot u s'

theorem SelectedIn.selects (h : SelectedIn s₀ pivot selection s) (hs : s₀.Faithful)
    (hp : s₀.HasObjectType pivot) : s₀.Onward s ∧ ∃ cs, Selects s₀ selection cs := by
  cases h
  case all h => exact ⟨h, [], ⟨.nil, .nil⟩, .inl rfl⟩
  case some hes hsel h =>
    obtain ⟨h₁, hcs⟩ := selectionOf_selects hs hes hp hsel
    exact ⟨h₁.trans h, hcs⟩

-- The dimensions of a term are the variables that the paths end in, and its conditions are what the
-- pairs of the selection state.
structure TellsExactly (s₀ : Session) (ps : List Path) (selection t : Term) (ds : List Dimension)
    (cs : List Condition) : Prop where
  dimensions : dimensions t = .ok ds
  conditions : conditions t = .ok cs
  once       : (ds.map (·.var)).Nodup
  heads      : ∀ v, v ∈ ds.map (·.var) ↔ ∃ p ∈ ps, v ∈ p.heads
  pairs      : Forall₂ (States s₀) (pairs selection) cs

theorem Asked.tells {x : Term × List Path} {cs : List Condition}
    (h : Asked s₀ pivot target split ps numbers) (hc : Selects s₀ selection cs)
    (hx : TotalTells s₀ pivot target split selection ps x) (hn : x.1 ≠ .nothing) :
    Forall₂ s₀.Extends ps x.2 ∧ ∃ ds, TellsExactly s₀ x.2 selection x.1 ds cs := by
  cases hx
  case nothing => exact absurd rfl hn
  case total n v w ty led ps' hl hd hv hw =>
    have hg := h.session.consistent.graph
    have hsplit : split ≠ .nothing → s₀.OverRelations pivot split :=
      fun hn => (h.split.resolve_left hn).overRelations h.graph hg pivot
    rw [toldAlong_eq_heads hl (h.target.overRelations h.graph hg pivot) hsplit hd] at hw
    have hvars : ∀ u ∈ ps'.flatMap Path.heads, s₀.HasVariable u := by
      intro u hu
      obtain ⟨p, hp, hu⟩ := mem_flatMap.mp hu
      obtain ⟨_, _, he⟩ := exists_of_mem_right hd hp
      exact he.vars u hu
    have hcount (u : Term) : u ∈ told w ∧ isCountedVariable u ↔ u ∈ ps'.flatMap Path.heads := by
      rw [hw, mem_append]
      constructor
      · rintro ⟨hu | hu, hcounted⟩
        · exact hu
        · simp [hc.not_counted hu] at hcounted
      · exact fun hu => ⟨.inl hu, (hvars u hu).counted⟩
    obtain ⟨ds, hds, hnodup, hmem⟩ := dimensions_aggregation hcount hvars
    refine ⟨hd.imp fun _ _ he => he.goes, ds, hds, ?_, hnodup, fun u => ?_, hc.states.states⟩
    · refine hc.conditions_eq h.session (fun u hu => ?_) fun u hu => ?_
      · rw [told_app (by simp)] at hu
        obtain hu | hu : u ∈ told v ∨ u ∈ told w := by simpa using hu
        · exact hv u hu
        · exact (mem_append.mp ((hw u).mp hu)).imp_left fun hu => (hvars u hu).isVariable
      · rw [told_app (by simp)]
        simpa using Or.inr ((hw u).mpr (mem_append_right _ hu))
    · exact (hmem u).trans mem_flatMap

theorem inform_lists {cls : Int} {order : Option String} {rep : Report} {ds : List Dimension}
    {cs : List Condition} (hd : dimensions t = .ok ds) (hc : conditions t = .ok cs)
    (hcls : cls = 2 ∨ cls = 3) (h : inform t cls order = .ok rep) :
    ds.mapM Dimension.text = .ok rep.dimensions ∧ cs.mapM Condition.text = .ok rep.conditions := by
  rw [inform, hd, hc, ok_bind, ok_bind] at h
  obtain ⟨subjects, _, h⟩ := bind_eq_ok.mp h
  have h1 : (cls == 1) = false := by obtain rfl | rfl := hcls <;> rfl
  have h2 : (decide (2 ≤ cls) && decide (cls ≤ 11)) = true := by obtain rfl | rfl := hcls <;> rfl
  have h3 : (cls == 5 || cls == 11) = false := by obtain rfl | rfl := hcls <;> rfl
  have h4 : cls ≤ 5 := by omega
  simp only [h1, h2, h3, h4, if_true, Bool.false_eq_true, if_false] at h
  obtain ⟨text, _, h⟩ := bind_eq_ok.mp h
  obtain ⟨dimTexts, hdt, h⟩ := bind_eq_ok.mp h
  obtain ⟨condTexts, hct, h⟩ := bind_eq_ok.mp h
  obtain rfl := Except.ok.inj h
  exact ⟨hdt, hct⟩

/-- The explanation of a count or a total has one dimension for each variable that the extended
paths end in, and one condition for each pair of the selection: its variable, the relations in the
order of the path, and its constant. -/
theorem totalTerm_tellsExactly {r : Request} {s' : Session}
    (h : Asked s₀ pivot target split ps numbers) (hsel : SelectedIn s₀ pivot selection s)
    (ht : (r.totalTerm pivot target ps numbers selection split).Gives s (t, ps') s')
    (hn : t ≠ .nothing) :
    List.Forall₂ s₀.Extends ps ps' ∧ ∃ ds cs, TellsExactly s₀ ps' selection t ds cs ∧
      ∀ cls order rep, cls = 2 ∨ cls = 3 → inform t cls order = .ok rep →
        ds.mapM Dimension.text = .ok rep.dimensions ∧
        cs.mapM Condition.text = .ok rep.conditions := by
  obtain ⟨hs, cs, hcs⟩ := hsel.selects h.session h.pivot
  have hnumbers : ∀ v ∈ numbers, ∀ u ∈ told v, u.isVariable := by
    intro v hv
    obtain ⟨ks, hk, hks⟩ := h.numbers v hv
    exact told_of_elements hk hks
  have hk : Keeps (Onward s₀) (r.totalTerm pivot target ps numbers selection split)
      (TotalTells s₀ pivot target split selection ps) :=
    keeps_totalTerm h.pivot h.target.toHasObjectType hcs.tame h.dimensions hnumbers
  have hx := (hk s hs).right (t, ps') (congrArg Prod.fst ht)
  obtain ⟨hext, ds, hds⟩ := h.tells hcs hx hn
  refine ⟨hext, ds, cs, hds, fun cls order rep hcls hrep => ?_⟩
  exact inform_lists hds.dimensions hds.conditions hcls hrep

theorem builds_inclusion {n : Nat} {t u d d' c c' : Term} (ht : t.Goes d c) (hu : u.Goes d' c')
    (hd : d'.equals d) (hc : c.equals c') :
    ∃ m, Builds n .inclusion [t, u] (.app m .selection [t, u] none) d := by
  have hw : ∀ x ∈ [t, u], x.equals x := by simp [ht.whole, hu.whole]
  have hcommon : commonDomain [t, u] = .ok true := by
    refine commonDomain_eq_ok ht.dom ?_
    simp only [forall_mem_cons]
    exact ⟨⟨d, c, ht, ht.source.whole⟩, ⟨d', c', hu, hd⟩, by simp⟩
  have hpaired : pairedCodomains [t, u] = .ok true := by
    refine allM_eq_ok_true ?_
    simp only [forall_mem_cons]
    refine ⟨by simp [findIdx_cons, ht.cod, hu.cod, hc], ?_, by simp⟩
    cases htu : t == u <;> simp [findIdx_cons, htu, hu.cod, hu.target.whole]
  have ha : Op.inclusion.admits [t, u] = .ok true := by
    simp [admits_conditions (.inl rfl), hcommon, hpaired]
  have hp : (app (n + 1) .selection [t, u] none).IsType := isType_app rfl hw
  refine ⟨n + 1, _, ?_, goes_app (m := n + 2) rfl hw hp ht.source⟩
  have hform : Op.selection.form (n + 1) [t, u] = .ok (.app (n + 1) .selection [t, u] none) := by
    simp [Op.form, show Op.selection.admits [t, u] = .ok true from ha]
  simp [apply, ha, Op.resultType, hform, ht.dom, Op.form_functionalType hp ht.source]

-- Persons, their sex and the towns they live in.
namespace Towns

def homeEdge : Edge where
  name     := "woonplaats"
  sort     := "ObjectTypeRelation"
  source   := 0
  target   := 1
  domain   := ⟨"persoon", "ObjectType"⟩
  codomain := ⟨"gemeente", "ObjectType"⟩

def sexEdge : Edge where
  name     := "geslacht"
  sort     := "Variable"
  source   := 0
  target   := 2
  domain   := ⟨"persoon", "ObjectType"⟩
  codomain := ⟨"sekse", "Phenomenon"⟩

def townNameEdge : Edge where
  name     := "plaatsnaam"
  sort     := "Variable"
  source   := 1
  target   := 3
  domain   := ⟨"gemeente", "ObjectType"⟩
  codomain := ⟨"naam", "Phenomenon"⟩

def graph : Graph where
  nodes := #[⟨"persoon", "ObjectType", none⟩, ⟨"gemeente", "ObjectType", none⟩,
    ⟨"sekse", "Phenomenon", none⟩, ⟨"naam", "Phenomenon", none⟩, ⟨"getal", "Quantity", none⟩]
  edges := #[homeEdge, sexEdge, townNameEdge]

def type (n : Nat) (cls : KindClass) (name : String) : Term :=
  .kind { serial := n, id := .fresh n, cls, name, sort := cls.sort } none none none none

def element (n : Nat) (cls : KindClass) (name : String) (d c : Term) : Term :=
  .kind { serial := n, id := .fresh n, cls, name, sort := cls.sort }
    (some (.app (n + 1) .functionalType [d, c] none)) (some d) (some c) none

def person := type 1 .objectType "persoon"
def town   := type 2 .objectType "gemeente"
def sexes  := type 3 .phenomenon "sekse"
def names  := type 4 .phenomenon "naam"
def amount := type 5 .quantity "getal"

def home     := element 6 .objectTypeRelation "woonplaats" person town
def sex      := element 8 .variable "geslacht" person sexes
def townName := element 10 .variable "plaatsnaam" town names
def leiden   := element 12 .constant "Leiden" .one names

def types : List (String × Term) :=
  [("1", .one), ("persoon", person), ("gemeente", town), ("sekse", sexes), ("naam", names),
    ("getal", amount)]

def elements : List (String × Term) :=
  [("woonplaats", home), ("geslacht", sex), ("plaatsnaam", townName)]

def session : Session where
  next   := 14
  graph  := graph
  number := amount
  known  := Std.HashMap.ofList (types ++ elements)

theorem names_apart : (types ++ elements).Pairwise fun a b => (a.1 == b.1) = false := by decide

variable {name : String} {k : Term}

theorem known_of_mem (h : (name, k) ∈ types ++ elements) : session.known[name]? = some k :=
  Std.HashMap.getElem?_ofList_of_mem (beq_self_eq_true name) names_apart h

theorem mem_of_known (h : session.known[name]? = some k) : (name, k) ∈ types ++ elements := by
  by_cases hn : name ∈ (types ++ elements).map Prod.fst
  case pos =>
    obtain ⟨⟨_, k'⟩, hx, rfl⟩ := mem_map.mp hn
    obtain rfl := Option.some.inj ((known_of_mem hx).symm.trans h)
    exact hx
  case neg =>
    have hc : ((types ++ elements).map Prod.fst).contains name = false := by simpa using hn
    rw [session, Std.HashMap.getElem?_ofList_of_contains_eq_false hc] at h
    cases h

theorem graph_consistent : graph.Consistent := by
  refine Graph.consistent_of_heads (by decide) (by decide) (by decide) ?_ ?_
    (by simp [graph, homeEdge, sexEdge, townNameEdge])
    (by simp [graph, homeEdge, sexEdge, townNameEdge])
  · simp [graph]
    decide
  · simp [graph]
    decide

theorem typeKind_types : ∀ x ∈ types, x.2.TypeKind := by
  have h (n : Nat) (cls : KindClass) (name : String) (hc : cls.isType) :
      (type n cls name).TypeKind := ⟨_, _, _, _, _, rfl, hc⟩
  simp only [types, forall_mem_cons]
  exact ⟨typeKind_one, h _ _ _ rfl, h _ _ _ rfl, h _ _ _ rfl, h _ _ _ rfl, h _ _ _ rfl, by simp⟩

theorem person_typeKind : person.TypeKind := typeKind_types ("persoon", person) (by simp [types])
theorem town_typeKind : town.TypeKind     := typeKind_types ("gemeente", town) (by simp [types])
theorem sexes_typeKind : sexes.TypeKind   := typeKind_types ("sekse", sexes) (by simp [types])
theorem names_typeKind : names.TypeKind   := typeKind_types ("naam", names) (by simp [types])

theorem home_elementKind : home.ElementKind person town :=
  ⟨⟨_, _, _, rfl, rfl⟩, person_typeKind, town_typeKind⟩

theorem sex_elementKind : sex.ElementKind person sexes :=
  ⟨⟨_, _, _, rfl, rfl⟩, person_typeKind, sexes_typeKind⟩

theorem townName_elementKind : townName.ElementKind town names :=
  ⟨⟨_, _, _, rfl, rfl⟩, town_typeKind, names_typeKind⟩

theorem leiden_elementKind : leiden.ElementKind .one names :=
  ⟨⟨_, _, _, rfl, rfl⟩, typeKind_one, names_typeKind⟩

theorem ends_of_mem {x : String × Term} {e : Edge} (hx : x ∈ elements) (he : e ∈ graph.edges)
    (hn : e.name = x.1) : ∃ d c, (e.domain.name, d) ∈ types ∧ (e.codomain.name, c) ∈ types ∧
      x.2.ElementKind d c := by
  have same {e' : Edge} (he' : e' ∈ graph.edges) (hn : e.name = e'.name) : e = e' :=
    graph_consistent.sound.edge_eq he he' hn
  simp only [elements, mem_cons, not_mem_nil, or_false] at hx
  obtain rfl | rfl | rfl := hx
  · rw [same (show homeEdge ∈ graph.edges by simp [graph]) hn]
    exact ⟨person, town, by simp [types, homeEdge], by simp [types, homeEdge], home_elementKind⟩
  · rw [same (show sexEdge ∈ graph.edges by simp [graph]) hn]
    exact ⟨person, sexes, by simp [types, sexEdge], by simp [types, sexEdge], sex_elementKind⟩
  · rw [same (show townNameEdge ∈ graph.edges by simp [graph]) hn]
    exact ⟨town, names, by simp [types, townNameEdge], by simp [types, townNameEdge],
      townName_elementKind⟩

theorem fits (h : session.known[name]? = some k) : session.Fits name k := by
  have ht : ∀ x ∈ types ++ elements, x.1.toList.head? ∉ [some 'e', some 'a'] := by decide
  have hn (p : String) := ne_title (ht _ (mem_of_known h)) p
  refine ⟨?_, ?_, fun p hp => absurd hp (hn p).left, fun p hp => absurd hp (hn p).right⟩
  · intro v hv hname
    obtain hx | hx := mem_append.mp (mem_of_known h)
    · exact typeKind_types _ hx
    · have hd : ∀ x ∈ elements, ∀ v ∈ graph.nodes, v.name ≠ x.1 := by decide
      exact absurd hname (hd _ hx v hv)
  · intro e he hname
    obtain hx | hx := mem_append.mp (mem_of_known h)
    · have hd : ∀ x ∈ types, ∀ e ∈ graph.edges, e.name ≠ x.1 := by decide
      exact absurd hname (hd _ hx e he)
    · obtain ⟨d, c, hd, hc, hk⟩ := ends_of_mem hx he hname
      exact ⟨d, c, known_of_mem (mem_append_left _ hd),
        known_of_mem (mem_append_left _ hc), hk⟩

theorem faithful : session.Faithful where
  consistent := {
    graph  := graph_consistent
    one    := known_of_mem (by simp [types])
    getal  := known_of_mem (by simp [types, session])
    number := typeKind_types ("getal", amount) (by simp [types])
    known  := fun _ _ h => fits h }
  edge e he k h := by
    have hd : ∀ e ∈ graph.edges, ∀ x ∈ types ++ elements, e.name = x.1 → x.2.printed = e.name ∧
      x.2.cls? = KindClass.ofLabel? e.sort := by decide
    exact hd e he _ (mem_of_known h) rfl
  together p k h := by
    have ht : ∀ x ∈ types ++ elements, x.1.toList.head? ∉ [some 'e', some 'a'] := by decide
    exact absurd rfl (ne_title (ht _ (mem_of_known h)) p).right
  serial name k h := by
    have hs : ∀ x ∈ types ++ elements, x.2.serial?.any (· < 14) := by decide
    simpa [Option.any_eq_true, session, and_comm] using hs _ (mem_of_known h)
  apart name name' k k' h h' he := by
    have hs : ((types ++ elements).map (·.2.serial?)).Nodup := by decide
    have := inj_on_of_nodup_map hs (mem_of_known h) (mem_of_known h') he
    exact congrArg Prod.snd this

theorem hasVariable_sex : session.HasVariable sex :=
  ⟨⟨known_of_mem (by simp [types, elements, sex, element, printed]), _, _, sex_elementKind⟩,
    by decide⟩

theorem hasVariable_townName : session.HasVariable townName :=
  ⟨⟨known_of_mem (by simp [types, elements, townName, element, printed]), _, _,
    townName_elementKind⟩, by decide⟩

theorem hasRelation_home : session.HasRelation home :=
  ⟨⟨known_of_mem (by simp [types, elements, home, element, printed]), _, _, home_elementKind⟩,
    by decide⟩

theorem ofObjectType_person : session.OfObjectType person where
  cls   := by decide
  known := known_of_mem (by simp [types, person, type, printed])
  node  := by decide

theorem asked : Asked session person person .nothing [[sex]] [] where
  session    := faithful
  graph      := ⟨by decide, by decide⟩
  pivot      := ofObjectType_person.toHasObjectType
  target     := ofObjectType_person
  split      := .inl rfl
  dimensions := by simpa using .toVariable hasVariable_sex nofun
  numbers    := nofun

def request : Request where
  meanings := [.term person, .term sex, .term leiden]
  keywords := [Keyword.objectType, Keyword.category, Keyword.constant]

def paths : Assoc Int Path := [(0, [townName, home])]

theorem conditionPaths : ConditionPaths session [.term leiden] paths where
  paths     := by
    simp only [paths, forall_mem_singleton]
    exact ⟨townName, [home], rfl, hasVariable_townName, by simpa using hasRelation_home⟩
  constants := by
    simp only [paths, forall_mem_singleton]
    intro m hm
    obtain rfl : Meaning.term leiden = m := Except.ok.inj hm
    rfl
  apart     := by decide

theorem home_leads : Leads [townName, home] person names :=
  .cons townName_elementKind.goes (.single home_elementKind.goes) town_typeKind.isType.whole

theorem yields_selection : (selectionOf paths [.term leiden] person).Yields session fun u =>
    (pairs u).length = 1 ∧ ∃ b, SelectedFrom person u b := by
  have hs := faithful.consistent
  have hp := ofObjectType_person.toHasObjectType
  rw [selectionOf, paths]
  simp only [foldlM_cons, foldlM_nil, bind_pure]
  refine Yields.bind (P := fun args => ∃ t u, args = [t, u] ∧ t.Goes person names ∧
    u.Goes person names) ?_ ?_
  · refine (yields_ofExcept hs (a := home) rfl rfl).bind ?_
    rintro _ s₁ hl₁ hs₁ rfl
    refine (yields_ofExcept hs₁ (a := person) rfl rfl).bind ?_
    rintro _ s₂ hl₂ hs₂ rfl
    rw [if_pos BEq.rfl]
    refine (yields_ofExcept hs₂ (a := Meaning.term leiden) rfl rfl).bind ?_
    rintro _ s₃ hl₃ hs₃ rfl
    refine (yields_compose hs₃ home_leads).bind fun t s₄ hl₄ hs₄ ht => ?_
    have hp := hp.later (((hl₁.trans hl₂).trans hl₃).trans hl₄)
    refine (yields_together hs₄ hp).bind fun w s₅ _ hs₅ hw => ?_
    have hu := Leads.cons leiden_elementKind.goes (.single hw) typeKind_one.isType.whole
    refine (yields_compose hs₅ hu).bind ?_
    intro u s₆ _ hs₆ hu
    exact yields_ofExcept hs₆ rfl ⟨t, u, rfl, ht, hu⟩
  · rintro _ s' _ hs' ⟨t, u, rfl, ht, hu⟩
    refine yields_app hs' fun n => ?_
    obtain ⟨m, hb⟩ := builds_inclusion (n := n) ht hu ht.source.whole ht.target.whole
    exact ⟨_, _, hb, fun ty hg => ⟨rfl, _, .some hg hg.target.whole⟩⟩

end Towns

-- The persons that live in a town, counted by their sex.
theorem tellsExactly_persons_by_sex : Asked Towns.session Towns.person Towns.person .nothing
      [[Towns.sex]] [] ∧
    ∃ u s t ps' s' ds cs, SelectedIn Towns.session Towns.person u s ∧ (Towns.request.totalTerm
      Towns.person Towns.person [[Towns.sex]] [] u .nothing).Gives s (t, ps') s' ∧ t ≠ .nothing ∧
      TellsExactly Towns.session ps' u t ds cs ∧ ds.map (·.var) = [Towns.sex] ∧
      cs.length = 1 := by
  obtain ⟨u, s, hu, _, hs, hlen, b, hb⟩ := Towns.yields_selection
  have hp := Towns.ofObjectType_person.toHasObjectType
  have hon := (selectionOf_selects Towns.faithful Towns.conditionPaths hp hu).left
  have hsel : SelectedIn Towns.session Towns.person u s :=
    .some Towns.conditionPaths hu hon.faithful.onward
  have hdims : ∀ p ∈ [[Towns.sex]], ∃ d c, s.Dimension Towns.person p d c := by
    simp only [List.forall_mem_singleton]
    exact ⟨_, _, .single Towns.sex_elementKind.goes, hp.typeKind.isType.whole, nofun, nofun⟩
  obtain ⟨⟨t, ps'⟩, s', ht, _, _, htot⟩ :=
    yields_total_direct (r := Towns.request) hs (hp.later hon.later) hb hdims .nil
  have hn : t ≠ .nothing := by
    obtain ⟨_, _, _, _, rfl⟩ := htot.aggregates
    nofun
  obtain ⟨hext, ds, cs, h, _⟩ := totalTerm_tellsExactly Towns.asked hsel ht hn
  refine ⟨Towns.asked, u, s, t, ps', s', ds, cs, hsel, ht, hn, h, ?_, ?_⟩
  · obtain _ | ⟨hx, _ | _⟩ := hext
    obtain rfl : _ = [Towns.sex] := hx
    have hh : Path.heads [Towns.sex] = [Towns.sex] := rfl
    refine List.perm_singleton.mp ?_
    rw [List.perm_ext_iff_of_nodup h.once (List.nodup_singleton _)]
    intro v
    simpa [hh] using h.heads v
  · rw [← h.pairs.length_eq, hlen]

end Explanation
end Inquiry
