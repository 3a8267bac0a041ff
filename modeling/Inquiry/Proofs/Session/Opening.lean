import Mathlib
import Inquiry.Proofs.Graph.Trails
import Inquiry.Proofs.Session.Keeping
import Inquiry.Session.Opening

/-!
The session that is opened on a model. When the tables and the designs have been read, what is known
under the names of the graph is what the graph tells.
-/

namespace Inquiry

namespace Graph

variable {g : Graph}

def Joined (g : Graph) : Prop :=
  ∀ e ∈ g.edges, g.nameOf e.source = some e.domain.name ∧ g.nameOf e.target = some e.codomain.name

theorem Joined.addEdges (h : g.Joined) (e : EdgeSpec) : (g.addEdges e).Joined := by
  intro e' he'
  simp only [Graph.addEdges, Array.mem_def, Array.toList_appendList, List.mem_append, List.mem_map,
    List.mem_flatMap] at he'
  obtain he' | ⟨_, ⟨u, hu, w, hw, rfl⟩, rfl⟩ := he'
  case inl => exact h e' (Array.mem_def.mpr he')
  case inr => exact ⟨nameOf_iff.mp hu, nameOf_iff.mp hw⟩

end Graph

namespace Model

theorem foldl_addNode (vs : List Node) (g : Graph) : (vs.foldl Graph.addNode g).edges = g.edges ∧
    ∀ v ∈ g.nodes, v ∈ (vs.foldl Graph.addNode g).nodes := by
  induction vs generalizing g
  case nil => simp
  case cons w vs ih =>
    have ⟨he, hn⟩ := ih (g.addNode w)
    exact ⟨he, fun v hv => hn v (by simp [Graph.addNode, hv])⟩

theorem foldl_addEdges (es : List EdgeSpec) {g : Graph} (h : g.Joined) :
    (es.foldl Graph.addEdges g).Joined ∧ (es.foldl Graph.addEdges g).nodes = g.nodes := by
  induction es generalizing g
  case nil => exact ⟨h, rfl⟩
  case cons e es ih => exact ih (h.addEdges e)

theorem joined_nodes (vs : List Node) : (vs.foldl Graph.addNode {}).Joined := by
  intro e he
  rw [(foldl_addNode vs {}).left] at he
  simp at he

theorem joined_graph (m : Model) : m.graph.Joined :=
  (foldl_addEdges m.edges (joined_nodes _)).left

theorem first_mem_nodes (m : Model) : { name := "1", sort := "One" } ∈ m.graph.nodes := by
  rw [Model.graph, (foldl_addEdges m.edges (joined_nodes _)).right]
  exact (foldl_addNode m.nodes (Graph.addNode {} { name := "1", sort := "One" })).right _
    (by simp [Graph.addNode, Graph.nonEmpty])

theorem one_mem_nodes (m : Model) : ∃ v ∈ m.graph.nodes, v.name = "1" :=
  ⟨_, m.first_mem_nodes, rfl⟩

end Model

-- A model whose graph has kinds for all its names.
structure Model.Regular (m : Model) : Prop where
  distinct : (m.graph.nodes.toList.map (·.name) ++ m.graph.edges.toList.map (·.name)).Nodup
  types    : ∀ v ∈ m.graph.nodes, Graph.NamesType v.sort
  elements : ∀ e ∈ m.graph.edges, ∃ c, Graph.NamesElement e.sort c ∧
    (c = .constant → e.domain.name = "1")
  ends     : ∀ e ∈ m.graph.edges, Graph.NamesType e.domain.sort ∧ Graph.NamesType e.codomain.sort

-- The names of the quantity of numbers and of the nodes are not given to anything else.
structure Model.Fit (m : Model) : Prop extends Regular m where
  number  : ∀ e ∈ m.graph.edges, e.name ≠ "getal"
  designs : ∀ d ∈ m.designs, ∀ o ∈ d.operands, ∀ v ∈ m.graph.nodes, v.name ≠ o.name

theorem Model.Fit.sound {m : Model} (h : m.Fit) : m.graph.Sound where
  distinct := h.distinct
  types    := h.types
  elements := h.elements
  source e he := ⟨(m.joined_graph e he).left, (h.ends e he).left⟩
  target e he := ⟨(m.joined_graph e he).right, (h.ends e he).right⟩

namespace SessionM

open Session

section Tables

variable {I : Session → Prop} (hI : ∀ name sort, Keeps I (kindOfSort name sort) fun _ => True)
include hI

theorem keeps_rowKind (row : List String) (i : Nat) : Keeps I (rowKind row i) fun _ => True :=
  keeps_ofExcept.bind fun _ _ => keeps_ofExcept.bind fun _ _ => hI _ _

theorem keeps_readRows {rows : List (List String)} {read : List String → SessionM α}
    (h : ∀ row, Keeps I (read row) fun _ => True) : Keeps I (readRows rows read) fun _ => True :=
  keeps_foldlM fun _ row _ => (keeps_rowKind hI row 0).bind fun _ _ => (h row).bind fun _ _ =>
    keeps_pure trivial

theorem keeps_readKinds (rows : List (List String)) : Keeps I (readKinds rows) fun _ => True :=
  keeps_readRows hI fun row => keeps_rowKind hI row 2

theorem keeps_readKindLists (rows : List (List String)) :
    Keeps I (readKindLists rows) fun _ => True :=
  keeps_readRows hI fun row => keeps_mapM fun i _ => keeps_rowKind hI row (2 * i + 2)

theorem keeps_readTexts (rows : List (List String)) : Keeps I (readTexts rows) fun _ => True :=
  keeps_readRows hI fun _ => keeps_ofExcept

end Tables

section Designs

variable {g : Graph}

theorem keeps_operand {o : Operand} (ho : o.name ≠ "1") (hv : ∀ v ∈ g.nodes, v.name ≠ o.name) :
    Keeps (SoundOn g) (operand o) fun _ => True := by
  refine (keeps_kindOfSort_variable o.name).bind fun k hk => ?_
  split
  case h_2 => exact keeps_pure trivial
  case h_1 =>
    refine (keeps_kindNamed _).bind fun _ _ => (keeps_kindNamed _).bind fun _ _ => ?_
    refine (keeps_make (I := SoundOn g) (fun _ => (SoundOn.kept g).numbered) _).bind fun v _ => ?_
    refine Keeps.bind (keeps_modify fun s hs => ?_) fun _ _ => keeps_pure trivial
    exact ⟨hs.sound.know_other ho (hs.graph ▸ hv) (hs.graph ▸ hk rfl), hs.graph⟩

theorem keeps_readDesign {I : Session → Prop} {d : Design} (hI : ∀ s, I s → I s.numbered)
    (h : ∀ o ∈ d.operands, Keeps I (operand o) fun _ => True) :
    Keeps I (readDesign d) fun _ => True :=
  (keeps_mapM h).bind fun _ _ => (keeps_app hI _ _).bind fun _ _ => keeps_make hI _

end Designs

variable {m : Model} {s s' : Session}

theorem typeKind_of_make {spec : KindSpec} {n : Nat} {k : Term} (hk : Term.make n spec = .ok k)
    (hc : spec.cls.isType) (hs : spec.constr = none) (hn : spec.sortNumber = none) :
    k.TypeKind := by
  have ⟨k', hk', ht⟩ := Term.make_type n spec hc hs hn
  exact Except.ok.inj (hk'.symm.trans hk) ▸ ht

theorem known_of_first {number : Term} {name : String}
    (hk : s.known = (({} : Session).know "1" .one |>.know "getal" number).known) (ho : name ≠ "1")
    (hn : name ≠ "getal") : s.known[name]? = none := by
  rw [hk, known_know_of_ne _ _ hn, known_know_of_ne _ _ ho]
  simp

theorem soundOn_of_first {number : Term} (hm : m.Fit) (hn : number.TypeKind)
    (hg : s.graph = m.graph)
    (hk : s.known = (({} : Session).know "1" .one |>.know "getal" number).known) :
    SoundOn m.graph s := by
  have hone : s.known["1"]? = some .one := by rw [hk, known_know_of_ne _ _ (by decide), known_know]
  have hnumber : s.known["getal"]? = some number := by rw [hk, known_know]
  refine ⟨⟨hg ▸ hm.sound, hone, fun v _ k h => ?_, fun e he k h => ?_⟩, hg⟩
  · by_cases ho : v.name = "1"
    case pos =>
      rw [ho, hone] at h
      exact Option.some.inj h ▸ Term.typeKind_one
    case neg =>
      by_cases hv : v.name = "getal"
      case pos =>
        rw [hv, hnumber] at h
        exact Option.some.inj h ▸ hn
      case neg => simp [known_of_first hk ho hv] at h
  · have ⟨v, hv, hvn⟩ := m.one_mem_nodes
    have ho : e.name ≠ "1" := fun h => hm.sound.name_ne hv (hg ▸ he) (hvn.trans h.symm)
    simp [known_of_first hk ho (hm.number e (hg ▸ he))] at h

theorem keeps_designs (hm : m.Fit) :
    Keeps (SoundOn m.graph) (m.designs.mapM readDesign) fun _ => True := by
  have ⟨v, hv, hvn⟩ := m.one_mem_nodes
  refine keeps_mapM fun d hd => keeps_readDesign (fun _ => (SoundOn.kept _).numbered) fun o ho => ?_
  have ho := hm.designs d hd o ho
  exact keeps_operand (fun h => ho v hv (hvn.trans h.symm)) ho

theorem Gives.filled {I : Session → Prop} {x : SessionM α} {f : α → Session → Session}
    {y : SessionM β} {b : β} (h : (x >>= fun a => modify (f a) >>= fun _ => y).Gives s b s')
    (hs : I s) (hx : Keeps I x fun _ => True) (hf : ∀ a s, I s → I (f a s)) :
    ∃ t, I t ∧ y.Gives t b s' := by
  have ⟨a, s₁, hx', h⟩ := gives_bind.mp h
  have ⟨_, s₂, hm, hy⟩ := gives_bind.mp h
  exact ⟨s₂, gives_modify.mp hm ▸ hf a s₁ (hx.gives hs hx'), hy⟩

-- A session begins with two types that are always there; then the tables and the designs are read,
-- and at last the object types.
theorem start_reads {I : Session → Prop} {u : Unit} (h : (start m).Gives {} u s)
    (hI : ∀ name sort, Keeps I (kindOfSort name sort) fun _ => True)
    (hd : Keeps I (m.designs.mapM readDesign) fun _ => True)
    (same : ∀ s s', I s → s'.graph = s.graph → s'.number = s.number → s'.known = s.known →
      s'.next = s.next → I s')
    (first : ∀ s, Term.make 1 { cls := .quantity, name := "getal" } = .ok s.number →
      s.graph = m.graph →
      s.known = (({} : Session).know "1" .one |>.know "getal" s.number).known → 1 < s.next → I s) :
    ∃ s₁ s₂ ks, I s₁ ∧
      ((s₁.graph.nodesOfSort "ObjectType").mapM fun v => restore (.ofNode v)).Gives s₁ ks s₂ ∧
        s = { s₂ with objectTypes := ks } := by
  rw [start] at h
  have ⟨number, s₁, h₁, h⟩ := gives_bind.mp h
  have ⟨_, s₂, h₂, h⟩ := gives_bind.mp h
  have ⟨_, s₃, h₃, h⟩ := gives_bind.mp h
  have ⟨pair, s₄, h₄, h⟩ := gives_bind.mp h
  have ⟨quotient, s₅, h₅, h⟩ := gives_bind.mp h
  have ⟨_, s₆, h₆, h⟩ := gives_bind.mp h
  have ⟨hn, h₁⟩ := gives_make_iff.mp h₁
  have h₂ := gives_modify.mp h₂
  have h₃ := gives_modify.mp h₃
  have ⟨_, h₄⟩ := gives_app_iff.mp h₄
  have ⟨_, h₅⟩ := gives_make_iff.mp h₅
  have h₆ := gives_modify.mp h₆
  have hs : I s₆ := by
    subst h₁ h₂ h₃ h₄ h₅ h₆
    exact first _ hn rfl rfl (by simp [Session.numbered, Op.serials])
  have ⟨_, hs, h⟩ := h.filled hs (keeps_readKindLists hI _) fun _ s hs => same s _ hs rfl rfl rfl rfl
  have ⟨_, hs, h⟩ := h.filled hs (keeps_readKinds hI _) fun _ s hs => same s _ hs rfl rfl rfl rfl
  have ⟨_, hs, h⟩ := h.filled hs (keeps_readKinds hI _) fun _ s hs => same s _ hs rfl rfl rfl rfl
  have ⟨_, hs, h⟩ := h.filled hs (keeps_readKinds hI _) fun _ s hs => same s _ hs rfl rfl rfl rfl
  have ⟨_, hs, h⟩ := h.filled hs (keeps_readKinds hI _) fun _ s hs => same s _ hs rfl rfl rfl rfl
  have ⟨_, hs, h⟩ := h.filled hs (keeps_readKinds hI _) fun _ s hs => same s _ hs rfl rfl rfl rfl
  have ⟨_, hs, h⟩ := h.filled hs (keeps_readTexts hI _) fun _ s hs => same s _ hs rfl rfl rfl rfl
  have ⟨t, hs, h⟩ := h.filled hs hd fun _ s hs => same s _ hs rfl rfl rfl rfl
  replace h := gives_get_bind.mp h
  have ⟨ks, s₇, hks, h⟩ := gives_bind.mp h
  exact ⟨t, s₇, ks, hs, hks, (gives_modify.mp h).symm⟩

theorem start_soundOn {u : Unit} (hm : m.Fit) (h : (start m).Gives {} u s) : SoundOn m.graph s := by
  have ⟨s₁, s₂, ks, hs, hks, he⟩ := start_reads h keeps_kindOfSort (keeps_designs hm)
    (fun _ _ hs hg _ hk _ => hs.of_eq hg hk)
    fun _ hn hg hk _ => soundOn_of_first hm (typeKind_of_make hn rfl rfl rfl) hg hk
  have hr : Keeps (SoundOn m.graph)
      ((s₁.graph.nodesOfSort "ObjectType").mapM fun v => restore (.ofNode v)) fun _ => True := by
    refine keeps_mapM fun v hv => ?_
    rw [hs.graph, Graph.nodesOfSort] at hv
    exact keeps_restore_node (Array.mem_def.mpr (List.mem_of_mem_filter hv))
  exact he ▸ (hr.gives hs hks).of_eq rfl rfl

theorem start_gives {s₀ : Session} (h : Session.start m = .ok s₀) :
    ∃ u, (SessionM.start m).Gives {} u s₀ := by
  rw [Session.start] at h
  split at h
  case h_1 u s hs => exact ⟨u, Except.ok.inj h ▸ hs⟩
  case h_2 => simp at h

-- Nothing changes when a table gets what it has already.
theorem gives_fill {x : SessionM α} {f : α → Session → Session} {y : SessionM β} {a : α} {b : β}
    (hx : x.Gives s a s) (hf : f a s = s) (hy : y.Gives s b s') :
    (x >>= fun a => modify (f a) >>= fun _ => y).Gives s b s' :=
  Gives.bind hx (Gives.bind (a := ⟨⟩) (gives_modify.mpr hf) hy)

theorem start_of_graph (m : Model)
    (hm : m = { nodes := m.nodes, edges := m.edges, designs := m.designs }) :
    ∃ (number : Term) (first : Session),
      Term.make 1 { cls := .quantity, name := "getal" } = .ok number ∧ first.next = 10 ∧
      first.graph = m.graph ∧
      first.known = (({} : Session).know "1" .one |>.know "getal" number).known ∧
      ∀ (ds ks : List Term) (s s' : Session), (m.designs.mapM readDesign).Gives first ds s →
        ((s.graph.nodesOfSort "ObjectType").mapM (restore ∘ .ofNode)).Gives
          { s with designs := ds } ks s' →
            Session.start m = .ok { s' with objectTypes := ks } := by
  have ⟨number, pair, quotient, hn, hp, hq⟩ : ∃ number pair quotient,
      Term.make 1 { cls := .quantity, name := "getal" } = .ok number ∧
      Term.apply (1 + Op.serials) .cartesianProduct [number, number] = .ok pair ∧
      Term.make (1 + Op.serials + Op.serials)
        { cls := .operator, name := "(/)", domain := some pair, codomain := some number } =
          .ok quotient :=
    ⟨_, _, _, rfl, rfl, rfl⟩
  let s₁ : Session := (({} : Session).numbered.know "1" .one).know "getal" number
  let first : Session := { s₁.numbered.numbered with graph := m.graph, number, quotient }
  refine ⟨number, first, hn, rfl, rfl, rfl, fun ds ks s s' hd h => ?_⟩
  have hs : (start m).Gives {} () { s' with objectTypes := ks } := by
    refine Gives.bind (gives_make hn) (Gives.bind (gives_know ..) (Gives.bind (gives_know ..) ?_))
    refine Gives.bind (gives_app_iff.mpr ⟨hp, rfl⟩) ?_
    refine Gives.bind (gives_make hq) (Gives.bind (a := ⟨⟩) (gives_modify.mpr rfl) ?_)
    change Gives _ first () _
    rw [hm]
    -- The seven tables are empty.
    iterate 7 refine gives_fill (a := []) gives_done rfl ?_
    refine Gives.bind hd (Gives.bind (a := ⟨⟩) (gives_modify.mpr rfl) ?_)
    exact gives_get_bind.mpr (Gives.bind h (gives_modify.mpr rfl))
  rw [Session.start, hs]

theorem restore_nodes {g : Graph} {vs : List Node} (hs : SoundOn g s) (hv : ∀ v ∈ vs, v ∈ g.nodes) :
    ∃ ks s', (vs.mapM (restore ∘ .ofNode)).Gives s ks s' := by
  have step : ∀ v ∈ vs, ∀ s, SoundOn g s →
      ∃ k s', ((restore ∘ .ofNode) v).Gives s k s' ∧ SoundOn g s' := by
    intro v hm s hs
    have ⟨k, s', hk, hs'⟩ := restore_node_of_mem (SoundOn.kept g) hs (hs.graph ▸ hv v hm)
    exact ⟨k, s', hk, hs'.kept⟩
  have ⟨ks, s', hks, _⟩ := exists_mapM step hs
  exact ⟨ks, s', hks⟩

theorem start_of_fit (hm : m.Fit) (he : m = { nodes := m.nodes, edges := m.edges }) :
    ∃ s, Session.start m = .ok s := by
  have hd : m.designs = [] := by rw [he]
  have ⟨_, first, hn, _, hg, hk, h⟩ := start_of_graph m (hd ▸ he)
  have hs : SoundOn m.graph { first with designs := [] } :=
    (soundOn_of_first hm (typeKind_of_make hn rfl rfl rfl) hg hk).of_eq rfl rfl
  have hmem : ∀ v ∈ first.graph.nodesOfSort "ObjectType", v ∈ m.graph.nodes := fun v hv =>
    Array.mem_def.mpr (hg ▸ List.mem_of_mem_filter hv)
  have ⟨ks, s', hks⟩ := restore_nodes hs hmem
  exact ⟨_, h [] ks first s' (hd ▸ gives_mapM_nil) hks⟩

end SessionM
end Inquiry
