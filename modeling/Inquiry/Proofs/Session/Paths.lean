import Mathlib
import Inquiry.Proofs.Session.Opening
import Inquiry.Request.Building

/-!
Paths in a session. In whatever state a session is, the kinds along a path can be composed, and they
lead from the one type to the other.
-/

namespace Inquiry

open List

namespace Graph

variable {g : Graph}

theorem Sound.source_lt (h : g.Sound) : ∀ e ∈ g.edges, e.source < g.nodes.size := by
  intro e he
  have hn := (h.source e he).left
  by_contra hlt
  simp [nameOf, hlt] at hn

theorem Sound.nameOf_inj (h : g.Sound) (u v : Nat) (x : String) (hu : g.nameOf u = some x)
    (hv : g.nameOf v = some x) : u = v :=
  nameOf_inj_of_nodup (nodup_append.mp h.distinct).left hu hv

end Graph

namespace Term

-- The ends that the kinds have of themselves: the last kind begins at `o`, the first one ends at
-- `t`, and each one begins where the next one ends.
structure Chained (ks : List Term) (o t : Term) : Prop where
  last  : ∃ k, ks.getLast? = some k ∧ k.domain = .ok o
  first : ∃ k, ks.head? = some k ∧ k.codomain = .ok t
  links : ks.IsChain fun k l => ∃ d c, k.domain = .ok d ∧ l.codomain = .ok c ∧ d.equals c

theorem ElementKind.ends {k d c d' c' : Term} (h : k.ElementKind d c) (hg : k.Goes d' c') :
    k.domain = .ok d' ∧ k.codomain = .ok c' := by
  have ⟨_, _, _, hk, hc⟩ := h.shape
  have hd := h.goes.dom.symm.trans hg.dom
  have hc' := h.goes.cod.symm.trans hg.cod
  obtain rfl := Except.ok.inj hd
  obtain rfl := Except.ok.inj hc'
  subst hk
  simp [domain, domain?, codomain, codomain?, hc]

theorem Leads.chained {ks : List Term} {o t : Term} (h : Leads ks o t)
    (hk : ∀ k ∈ ks, ∃ d c, k.ElementKind d c) : Chained ks o t := by
  induction h
  case single k d c h =>
    have ⟨_, _, hk⟩ := hk k (by simp)
    have ⟨hd, hc⟩ := hk.ends h
    exact ⟨⟨k, rfl, hd⟩, ⟨k, rfl, hc⟩, by simp⟩
  case cons k ks d d' c c' h hl he ih =>
    have ⟨⟨_, _, hk⟩, hks⟩ := forall_mem_cons.mp hk
    have ⟨hd, hc⟩ := hk.ends h
    have ⟨⟨l, hl, hld⟩, ⟨f, hf, hfc⟩, hlinks⟩ := ih hks
    match ks, hf with
    | _ :: ks, rfl =>
      exact ⟨⟨l, by simpa using hl, hld⟩, ⟨k, rfl, hc⟩, .cons_cons ⟨d', c', hd, hfc, he⟩ hlinks⟩

end Term

namespace SessionM

open Session

variable {m : Model} {s s' : Session}

-- The states of a session that began in `s₀`: kinds, paths and common origins may have been asked
-- for, and not all of that needs to have succeeded.
inductive Reached (s₀ : Session) : Session → Prop
  | start : Reached s₀ s₀
  | kindNamed {s : Session} (name : String) :
    (Reached s₀ s) → Reached s₀ ((kindNamed name).runIn s).2
  | kindOfSort {s : Session} (name sort : String) :
    (Reached s₀ s) → Reached s₀ ((kindOfSort name sort).runIn s).2
  | pathsNamed {s : Session} (a b : String) :
    (Reached s₀ s) → Reached s₀ ((pathsNamed a b).runIn s).2
  | paths {s : Session} (t u : Term) : (Reached s₀ s) → Reached s₀ ((paths t u).runIn s).2
  | origin {s : Session} (t u : Term) : (Reached s₀ s) → Reached s₀ ((origin t u).runIn s).2

theorem Reached.passes {g : Graph} {I : Session → Prop} {R : Session → Session → Prop} [Std.Refl R]
    [IsTrans Session R] {s₀ : Session} (rc : Recalling g I R) (hs : I s₀) (h : Reached s₀ s) :
    I s ∧ R s₀ s := by
  have next {α : Type} {y : SessionM α} {Q : Session → α → Prop} {s : Session} (ih : I s ∧ R s₀ s)
      (hy : y.Passes I R s Q) : I (y.runIn s).2 ∧ R s₀ (y.runIn s).2 :=
    ⟨hy.1, IsTrans.trans _ _ _ ih.right hy.2.1⟩
  induction h
  case start                  => exact ⟨hs, Std.Refl.refl s₀⟩
  case kindNamed name _ ih    => exact next ih (rc.kindNamed name ih.left)
  case kindOfSort name k _ ih => exact next ih (rc.kindOfSort name k ih.left)
  case pathsNamed a b _ ih    => exact next ih (rc.pathsNamed a b ih.left)
  case paths t u _ ih         => exact next ih (rc.paths t u ih.left)
  case origin t u _ ih        => exact next ih (rc.origin t u ih.left)

theorem Reached.soundOn {g : Graph} {s₀ : Session} (hs : SoundOn g s₀) (h : Reached s₀ s) :
    SoundOn g s :=
  (h.passes (SoundOn.recalling g) hs).left

theorem kindNamed_of_known {name : String} {k : Term} (h : s.known[name]? = some k) :
    (kindNamed name).Gives s k s := by
  rw [kindNamed]
  exact gives_get_bind.mpr (by simp [h])

theorem compose_leads {ks : List Term} {o t : Term} (h : Term.Leads ks o t) (s : Session) :
    ∃ u s', (compose ks).Gives s u s' ∧ u.Goes o t := by
  match ks, h with
  | [k], .single h => exact ⟨k, s, gives_done, h⟩
  | k :: l :: ks, h =>
    have ⟨_, hu, hg⟩ := Term.builds_composition h (by simp) (n := s.next)
    exact ⟨_, s.numbered, gives_app_iff.mpr ⟨hu, rfl⟩, hg⟩

namespace Dwelling

def objectType (name : String) : Node :=
  { name, sort := "ObjectType" }

def relation (name domain codomain : String) : EdgeSpec :=
  { name, sort := "ObjectTypeRelation", domain := ⟨domain, "ObjectType"⟩,
    codomain := ⟨codomain, "ObjectType"⟩ }

def constant (name codomain : String) : EdgeSpec :=
  { name, sort := "Constant", domain := ⟨"1", "One"⟩, codomain := ⟨codomain, "Phenomenon"⟩ }

def towns : Model where
  nodes := [objectType "persoon", objectType "adres", objectType "gemeente"]
  edges := [relation "woont" "persoon" "adres", relation "ligt" "adres" "gemeente",
    relation "burgemeester" "gemeente" "persoon"]

-- The variable of a design is called as a node is.
def names : Model where
  nodes   := [{ name := "naam", sort := "Phenomenon" }]
  edges   := [constant "jansen" "naam"]
  designs := [{ name := "namen", operands := [⟨"naam", "1", "1"⟩, ⟨"code", "1", "1"⟩] }]

-- A relation that is called as the numbers are.
def doors : Model where
  nodes := [objectType "persoon", objectType "adres"]
  edges := [relation "getal" "persoon" "adres"]

theorem namesType_of_mem {sort : String} (h : sort ∈ ["One", "ObjectType", "Phenomenon"]) :
    Graph.NamesType sort := by
  simp only [mem_cons, not_mem_nil, or_false] at h
  obtain h | h | h := h
  case inl     => exact h ▸ ⟨.one, rfl, rfl, rfl⟩
  case inr.inl => exact h ▸ ⟨.objectType, rfl, rfl, rfl⟩
  case inr.inr => exact h ▸ ⟨.phenomenon, rfl, rfl, rfl⟩

theorem regular_of_sorts {m : Model}
    (hd : (m.graph.nodes.toList.map (·.name) ++ m.graph.edges.toList.map (·.name)).Nodup)
    (hv : ∀ v ∈ m.graph.nodes, v.sort ∈ ["One", "ObjectType", "Phenomenon"])
    (he : ∀ e ∈ m.graph.edges,
      (e.sort = "ObjectTypeRelation" ∨ e.sort = "Variable" ∨
        e.sort = "Constant" ∧ e.domain.name = "1") ∧
      e.domain.sort ∈ ["One", "ObjectType", "Phenomenon"] ∧
      e.codomain.sort ∈ ["One", "ObjectType", "Phenomenon"]) : m.Regular where
  distinct := hd
  types v hm := namesType_of_mem (hv v hm)
  elements e hm := by
    obtain hs | hs | ⟨hs, ho⟩ := (he e hm).left
    case inl     => exact hs ▸ ⟨.objectTypeRelation, ⟨rfl, rfl, rfl⟩, by simp⟩
    case inr.inl => exact hs ▸ ⟨.variable, ⟨rfl, rfl, rfl⟩, by simp⟩
    case inr.inr => exact hs ▸ ⟨.constant, ⟨rfl, rfl, rfl⟩, fun _ => ho⟩
  ends e hm := ⟨namesType_of_mem (he e hm).right.left, namesType_of_mem (he e hm).right.right⟩

theorem towns_fit : towns.Fit :=
  ⟨regular_of_sorts (by decide) (by decide) (by decide), by decide, by simp [towns]⟩

theorem towns_start : ∃ s, Session.start towns = .ok s :=
  start_of_fit towns_fit rfl

theorem doors_start : ∃ s number, Session.start doors = .ok s ∧ s.graph = doors.graph ∧
    s.known["getal"]? = some number ∧ number.TypeKind := by
  have ⟨number, first, hn, _, hg, hk, h⟩ := start_of_graph doors rfl
  let s₀ : Session := { first with designs := [] }
  have hs₀ : s₀.known = _ := hk
  have ho : Graph.NamesType "ObjectType" := ⟨.objectType, rfl, rfl, rfl⟩
  -- The two object types become known one after the other.
  have hpersoon : s₀.known["persoon"]? = none := known_of_first hs₀ (by decide) (by decide)
  have ⟨k₁, _, _, h₁⟩ := restore_of_unknown none hpersoon ho
  let s₁ : Session := s₀.numbered.know "persoon" k₁
  have hadres : s₁.known["adres"]? = none :=
    (known_know_of_ne _ _ (by decide)).trans (known_of_first hs₀ (by decide) (by decide))
  have ⟨k₂, _, _, h₂⟩ := restore_of_unknown none hadres ho
  let s₂ : Session := s₁.numbered.know "adres" k₂
  have ht : first.graph.nodesOfSort "ObjectType" = [objectType "persoon", objectType "adres"] := by
    rw [hg]
    rfl
  have hst := h [] [k₁, k₂] first s₂ gives_mapM_nil <| by
    rw [ht]
    exact .mapM_cons h₁ (.mapM_cons h₂ gives_mapM_nil)
  refine ⟨_, number, hst, hg, ?_, typeKind_of_make hn rfl rfl rfl⟩
  calc s₂.known["getal"]?
    _ = s₁.known["getal"]?    := known_know_of_ne _ _ (by decide)
    _ = first.known["getal"]? := known_know_of_ne _ _ (by decide)
    _ = some number           := hk ▸ known_know ..

def onOne (name : String) : KindSpec :=
  { cls := .variable, name, domain := some .one, codomain := some .one }

theorem gives_operand {o : Operand} {v : Term} (ho : o.domain = "1" ∧ o.codomain = "1")
    (hk : s.known[o.name]? = none) (he : s.graph.edge? o.name = none)
    (h1 : s.known["1"]? = some .one) (hv : Term.make s.next (onOne o.name) = .ok v) :
    (operand o).Gives s v (s.numbered.know o.name v) := by
  have hn : (kindOfSort o.name "Variable").Gives s .nothing s := by
    refine gives_get_bind.mpr ?_
    simp only [hk]
    exact gives_get_bind.mpr (by simp [he])
  have h1 := kindNamed_of_known h1
  refine Gives.bind hn (Gives.bind (ho.left ▸ h1) (Gives.bind (ho.right ▸ h1) ?_))
  exact Gives.bind (gives_make hv) (gives_known ..)

theorem names_start : ∃ s v, Session.start names = .ok s ∧ s.graph = names.graph ∧
    s.known["1"]? = some .one ∧ s.known["jansen"]? = none ∧ s.known["naam"]? = some v ∧
      v.role? = some .element := by
  have ⟨number, s₀, hn, hx, hg, hk, h⟩ := start_of_graph names rfl
  have ⟨v, w, u, d, hv, hw, hu, hd, hr⟩ : ∃ v w u d,
      Term.make 10 (onOne "naam") = .ok v ∧ Term.make 13 (onOne "code") = .ok w ∧
      Term.apply 16 .product [v, w] = .ok u ∧
      Term.make 19 { cls := .datasetDesign, name := "namen", constr := some u } = .ok d ∧
      v.role? = some .element :=
    ⟨_, _, _, _, rfl, rfl, rfl, rfl, rfl⟩
  let s₁ : Session := s₀.numbered.know "naam" v
  let s₂ : Session := s₁.numbered.know "code" w
  have hone : s₀.known["1"]? = some .one := by rw [hk, known_know_of_ne _ _ (by decide), known_know]
  have hone₁ : s₁.known["1"]? = some .one := (known_know_of_ne _ _ (by decide)).trans hone
  have hone₂ : s₂.known["1"]? = some .one := (known_know_of_ne _ _ (by decide)).trans hone₁
  have hx₁ : s₁.next = 13 := congrArg (· + Op.serials) hx
  have hx₂ : s₂.next = 16 := congrArg (· + Op.serials) hx₁
  have hx₃ : s₂.numbered.next = 19 := congrArg (· + Op.serials) hx₂
  have hv : (operand ⟨"naam", "1", "1"⟩).Gives s₀ v s₁ :=
    gives_operand ⟨rfl, rfl⟩ (known_of_first hk (by decide) (by decide)) (hg ▸ rfl) hone (hx ▸ hv)
  have hw : (operand ⟨"code", "1", "1"⟩).Gives s₁ w s₂ := by
    refine gives_operand ⟨rfl, rfl⟩ ?_ ?_ hone₁ ?_
    · exact (known_know_of_ne _ _ (by decide)).trans (known_of_first hk (by decide) (by decide))
    · exact hg ▸ rfl
    · exact hx₁ ▸ hw
  have hds : (names.designs.mapM readDesign).Gives s₀ [d] s₂.numbered.numbered := by
    refine .mapM_cons (Gives.bind (hv.mapM_cons (hw.mapM_cons gives_mapM_nil)) ?_) gives_mapM_nil
    exact Gives.bind (gives_app_iff.mpr ⟨hx₂ ▸ hu, rfl⟩) (gives_make (hx₃ ▸ hd))
  have ho : s₂.numbered.numbered.graph.nodesOfSort "ObjectType" = [] := by
    change s₀.graph.nodesOfSort "ObjectType" = []
    rw [hg]
    rfl
  have hst := h [d] [] s₂.numbered.numbered _ hds <| by
    rw [ho]
    exact gives_mapM_nil
  refine ⟨_, v, hst, hg, hone₂, ?_, ?_, hr⟩
  · calc s₂.known["jansen"]?
      _ = s₁.known["jansen"]? := known_know_of_ne _ _ (by decide)
      _ = s₀.known["jansen"]? := known_know_of_ne _ _ (by decide)
      _ = none                := known_of_first hk (by decide) (by decide)
  · calc s₂.known["naam"]?
      _ = s₁.known["naam"]? := known_know_of_ne _ _ (by decide)
      _ = some v            := known_know ..

-- The relation is taken for the quantity of numbers, which does not lead anywhere.
theorem doors_unchained : ∃ s₀, Session.start doors = .ok s₀ ∧
    ∃ ps s', (pathsNamed "persoon" "adres").Gives s₀ ps s' ∧
      ∃ p ∈ ps, ∀ o t, ¬Term.Chained p o t := by
  have ⟨s₀, number, h₀, hg, hk, hn⟩ := doors_start
  have ⟨e, hp, he⟩ : ∃ e, s₀.graph.trails "persoon" "adres" = [[e]] ∧ e.name = "getal" := by
    rw [hg]
    exact ⟨_, rfl, rfl⟩
  rw [← he] at hk
  have hps : (pathsNamed "persoon" "adres").Gives s₀ [[number]] s₀ := by
    refine gives_get_bind.mpr ?_
    rw [hp]
    have hks : ([e].mapM fun e => restore (.ofEdge e)).Gives s₀ [number] s₀ :=
      .mapM_cons (restore_of_known hk) gives_mapM_nil
    exact .mapM_cons (Gives.bind hks gives_done) gives_mapM_nil
  refine ⟨s₀, h₀, [[number]], s₀, hps, [number], by simp, fun o t h => ?_⟩
  have ⟨k, hk, hd⟩ := h.last
  obtain rfl : number = k := Option.some.inj hk
  obtain ⟨_, _, _, _, _, rfl, hc⟩ := hn
  simp [Term.domain, Term.domain?, KindClass.isElement, hc, bind, Except.bind] at hd

theorem restore_edge_made {e : Edge} {cls : KindClass} {d c k : Term}
    (hk : s.known[e.name]? = none) (hl : KindClass.ofLabel? e.sort = some cls)
    (ht : cls.isType = false) (hb : built cls) (hd : s.known[e.domain.name]? = some d)
    (hc : s.known[e.codomain.name]? = some c) (h : (restore (.ofEdge e)).Gives s k s') :
    ∃ n spec, Term.make n spec = .ok k ∧ spec.cls = cls ∧ spec.codomain = c.present := by
  rw [Record.ofEdge, restore] at h
  replace h := gives_get_bind.mp h
  simp only [hk, hl, ht, hb, Bool.false_eq_true, if_false, if_true, restore.recallEnd] at h
  replace h := (restore_of_known hc).bind_iff.mp ((restore_of_known hd).bind_iff.mp h)
  obtain ⟨_, _, hm, h⟩ := gives_bind.mp h
  obtain ⟨_, _, rfl⟩ := gives_bind_pure.mp h
  exact ⟨_, _, (gives_make_iff.mp hm).left, rfl, rfl⟩

theorem make_constant_to_element {n : Nat} {v k : Term} {spec : KindSpec}
    (hv : v.role? = some .element) (hc : spec.cls = .constant) (hd : spec.codomain = some v) :
    Term.make n spec ≠ .ok k := by
  have ho : Term.one.hasRole .element = .ok false := rfl
  simp [Term.make, hc, Term.makeElement, Term.optionHasRole, hd, ho, Term.hasRole_eq hv, bind_eq_ok]

theorem names_fail : ∃ s₀, Session.start names = .ok s₀ ∧
    ∀ ps s', ¬(pathsNamed "1" "naam").Gives s₀ ps s' := by
  have ⟨s₀, v, h₀, hg, hone, hj, hv, hr⟩ := names_start
  refine ⟨s₀, h₀, fun ps s' h => ?_⟩
  have ⟨_, _, hget, h⟩ := gives_bind.mp h
  obtain ⟨rfl, rfl⟩ := gives_get.mp hget
  have ⟨e, hp, hn, hl, hd, hc⟩ : ∃ e, s₀.graph.trails "1" "naam" = [[e]] ∧ e.name = "jansen" ∧
      e.sort = "Constant" ∧ e.domain.name = "1" ∧ e.codomain.name = "naam" := by
    rw [hg]
    exact ⟨_, rfl, rfl, rfl, rfl, rfl⟩
  rw [hp, mapM_cons] at h
  have ⟨_, _, h, _⟩ := gives_bind.mp h
  have ⟨_, _, h, _⟩ := gives_bind.mp h
  rw [mapM_cons] at h
  have ⟨k, s₁, h, _⟩ := gives_bind.mp h
  have hl : KindClass.ofLabel? e.sort = some .constant := by
    rw [hl]
    rfl
  have ⟨n, spec, hm, hs, ht⟩ := restore_edge_made (hn ▸ hj) hl rfl rfl (hd ▸ hone) (hc ▸ hv) h
  have hv : v.present = some v := by
    cases v
    case nothing => simp [Term.role?] at hr
    all_goals rfl
  exact make_constant_to_element hr hs (ht.trans hv) hm

end Dwelling

-- Wherever a session has come to, the paths from one type to another can be composed, and they are
-- there where one type can be reached from the other.
theorem paths_compose {s₀ : Session} (hm : m.Fit) (h₀ : Session.start m = .ok s₀)
    (h : Reached s₀ s) (a b : String) : ∃ ps s', (pathsNamed a b).Gives s ps s' ∧
      (∀ p ∈ ps, ∃ o t, (kindNamed a).Gives s' o s' ∧ (kindNamed b).Gives s' t s' ∧
        Term.Chained p o t ∧ ∃ u s'', (compose p).Gives s' u s'' ∧ u.Goes o t) ∧
      (ps ≠ [] ↔ Relation.TransGen m.graph.Step a b) := by
  have ⟨_, hst⟩ := start_gives h₀
  have hs := h.soundOn (start_soundOn hm hst)
  have ⟨ps, s', hps, _, _, hlen, hall⟩ := pathsNamed_recalls (SoundOn.kept m.graph) a b hs
  refine ⟨ps, s', hps, fun p hp => ?_, ?_⟩
  · have ⟨o, t, ho, ht, hl, hk⟩ := hall p hp
    exact ⟨o, t, kindNamed_of_known ho, kindNamed_of_known ht, hl.chained hk, compose_leads hl s'⟩
  · rw [← Graph.trails_ne_nil_iff hm.sound.source_lt hm.sound.nameOf_inj, ← hs.graph,
      ← List.length_pos_iff, ← List.length_pos_iff, hlen]

namespace Dwelling

-- There is a path from persons to persons again, also after the mayors have been asked for.
theorem persons_reach_persons : towns.Fit ∧ ∃ s₀, Session.start towns = .ok s₀ ∧
    ∃ s, Reached s₀ s ∧ s = ((kindNamed "burgemeester").runIn s₀).2 ∧
    ∃ ps s', (pathsNamed "persoon" "persoon").Gives s ps s' ∧ ps ≠ [] ∧
      ∀ p ∈ ps, ∃ o t, (kindNamed "persoon").Gives s' o s' ∧ (kindNamed "persoon").Gives s' t s' ∧
        Term.Chained p o t ∧ ∃ u s'', (compose p).Gives s' u s'' ∧ u.Goes o t := by
  have ⟨s₀, h₀⟩ := towns_start
  have hr : Reached s₀ _ := .kindNamed "burgemeester" .start
  have ⟨ps, s', hps, hall, hne⟩ := paths_compose towns_fit h₀ hr "persoon" "persoon"
  have hstep : Relation.TransGen towns.graph.Step "persoon" "persoon" := by
    refine .head (b := "adres") ?_ (.head (b := "gemeente") ?_ (.single ?_))
    all_goals
      unfold Graph.Step
      decide
  exact ⟨towns_fit, s₀, h₀, _, hr, rfl, ps, s', hps, hne.mpr hstep, hall⟩

-- With a name of the graph that is taken, paths do not lead anywhere or are not given at all.
theorem taken_names_break_paths :
    (doors.Regular ∧ doors.designs = [] ∧ ∃ s₀, Session.start doors = .ok s₀ ∧
      ∃ ps s', (pathsNamed "persoon" "adres").Gives s₀ ps s' ∧
        ∃ p ∈ ps, ∀ o t, ¬Term.Chained p o t) ∧
    (names.Regular ∧
      (∀ e ∈ names.graph.edges, e.name ≠ "getal" ∧ ∀ d ∈ names.designs, ∀ o ∈ d.operands,
        e.name ≠ o.name) ∧
      ∃ s₀, Session.start names = .ok s₀ ∧ ∀ ps s', ¬(pathsNamed "1" "naam").Gives s₀ ps s') := by
  have hdoors : doors.Regular := regular_of_sorts (by decide) (by decide) (by decide)
  have hnames : names.Regular := regular_of_sorts (by decide) (by decide) (by decide)
  exact ⟨⟨hdoors, rfl, doors_unchained⟩, hnames, by decide, names_fail⟩

end Dwelling

end SessionM
end Inquiry
