import Inquiry.Proofs.Graph.Telling
import Inquiry.Proofs.Json.Ends
import Inquiry.Proofs.Session.Opening

/-!
What a store is told of the kinds of a domain: a node for each type and an edge for each element, in
the order of their classes. The graph that results has nothing else, and no edge twice.
-/

namespace Inquiry

open List Term KindClass Edge Node Store

namespace Term

inductive IsNode : Term → Prop
  | kind {h ty d c s} : h.cls.label ∈ nodeClasses → IsNode (.kind h ty d c s)

-- A type that an element can go from or to, where the kinds of a list are at hand.
inductive IsEnd (ks : List Term) : Term → Prop
  | one : IsEnd ks .one
  | node {k} : k ∈ ks → k.IsNode → IsEnd ks k

-- An element that becomes an edge; constants go from the type with a single member.
inductive IsEdge (ks : List Term) : Term → Prop
  | kind {h ty d c s} : h.cls ∈ [.objectTypeRelation, .variable, .constant] →
    (h.cls = .constant → d = .one) → IsEnd ks d → IsEnd ks c →
      IsEdge ks (.kind h ty (some d) (some c) s)

def endName (k : Term) : EndName :=
  ⟨k.printed, k.className⟩

def node (k : Term) : Node :=
  ⟨k.printed, k.className, k.head?.bind (·.altname)⟩

def edge : Term → EdgeSpec
  | k@(.kind h _ (some d) (some c) _) =>
    ⟨k.printed, k.className, d.endName, c.endName, h.article,
      if h.cls = .constant then h.code else none⟩
  | _ => default

def isNode (k : Term) : Bool :=
  nodeClasses.contains k.className

variable {ks : List Term} {k : Term}

theorem IsNode.isNode (h : k.IsNode) : k.isNode := by
  cases h
  case kind h => simpa [isNode, className] using h

theorem IsEdge.className_mem (h : k.IsEdge ks) :
    k.className ∈ ["ObjectTypeRelation", "Variable", "Constant"] := by
  cases h
  case kind h _ _ _ hc _ _ _ =>
    simp only [mem_cons, not_mem_nil, or_false] at hc
    obtain hc | hc | hc := hc <;> simp [className, hc, label]

theorem IsEdge.not_isNode (h : k.IsEdge ks) : k.isNode = false := by
  have hc := h.className_mem
  rw [isNode]
  generalize k.className = cls at hc
  simp only [mem_cons, not_mem_nil, or_false] at hc
  obtain rfl | rfl | rfl := hc <;> decide

theorem IsEnd.endOf_eq (h : k.IsEnd ks) : endOf (.ok (some k)) = some k.endName := by
  cases h
  case one           => rfl
  case node _ h      =>
    cases h
    rfl

theorem IsEdge.isElement (h : k.IsEdge ks) : k.isElementKind := by
  cases h
  case kind hc _ _ _ =>
    simp only [mem_cons, not_mem_nil, or_false] at hc
    obtain hc | hc | hc := hc <;> simp [isElementKind, cls?, hc, isElement, isType]

theorem IsEdge.endOf_domain? (h : k.IsEdge ks) : endOf k.domain? = some k.edge.domain := by
  have he := h.isElement
  cases h
  case kind h _ _ _ _ _ _ hd _ =>
    rw [domain?, if_pos (show h.cls.isElement from he)]
    exact hd.endOf_eq

theorem IsEdge.endOf_codomain? (h : k.IsEdge ks) :
    endOf k.codomain? = some k.edge.codomain := by
  have he := h.isElement
  cases h
  case kind h _ _ _ _ _ _ _ hc =>
    rw [codomain?, if_pos (show h.cls.isElement from he)]
    exact hc.endOf_eq

theorem IsEdge.isLink (h : k.IsEdge ks) : k.isLink :=
  contains_iff_mem.mpr h.className_mem

theorem IsEdge.ownEdge?_eq (h : k.IsEdge ks) : k.ownEdge? = some k.edge := by
  rw [ownEdge?, ownDomain?, ownCodomain?, h.endOf_domain?, h.endOf_codomain?]
  cases h
  case kind h ty d c s _ ho _ _ =>
    by_cases hk : h.cls = .constant
    case pos =>
      obtain rfl := ho hk
      simp [edgeBetween, className, hk, head?, edge, endName, one, label, printed]
    case neg => simp [edgeBetween, className, label_eq_constant, hk, head?, edge]

theorem IsNode.endOf_eq (h : k.IsNode) :
    endOf k.domain? = none ∧ endOf k.codomain? = none := by
  cases h
  case kind h _ _ _ _ hl =>
    have he : ¬h.cls.isElement := by
      intro he
      generalize h.cls = c at hl he
      cases c <;> simp [isElement, isType, label, nodeClasses] at he hl
    simp [domain?, codomain?, he, endOf]

end Term

/-- The kinds of a domain: types and elements between them, no two of which have the same name. -/
structure Catalogue where
  kinds  : List Term
  listed : ∀ k ∈ kinds, k.IsNode ∨ k.IsEdge kinds
  nodup  : (kinds.map printed).Nodup
  one    : ∀ k ∈ kinds, k.printed ≠ "1"
  number : ∀ k ∈ kinds, k.printed = "getal" → k.className = "Quantity"
  plain  : ∀ k ∈ kinds, Json.Unquoted k.printed

namespace Store

variable {ks : List Term}

theorem tells_fillNodes {m : Groups} (hm : Keyed m) (h : ∀ k ∈ members m, k.IsNode) :
    Tells (fillNodes m "1" "One")
      (.addNode ⟨"1", "One", none⟩ :: (members m).map (.addNode ∘ node)) (some ⟨⟩) := by
  rw [fillNodes, members, map_flatMap]
  refine (tells_say _).bind (tells_forM fun p hp => ?_)
  obtain ⟨hne, hc⟩ := hm p hp
  have hnode : ∀ k ∈ p.2, k.IsNode := fun k hk => h k (mem_flatMap.mpr ⟨p, hp, hk⟩)
  have hcls : nodeClasses.contains p.1 := by
    obtain ⟨k, hk⟩ := exists_mem_of_ne_nil _ hne
    exact hc k hk ▸ (hnode k hk).isNode
  simp only [hcls, if_true, map_eq_flatMap]
  refine tells_forM fun k hk => ?_
  rw [← hc k hk]
  cases hnode k hk
  exact tells_say _

theorem tells_fillEdges_of_isEdge {m : Groups} (hm : Keyed m) (h : ∀ k ∈ members m, k.IsEdge ks) :
    Tells (fillEdges m) ((members m).map (.addEdges ∘ edge)) (some ⟨⟩) := by
  obtain ⟨es, q, hf, ht⟩ := tells_fillEdges hm
  rw [filter_eq_self.mpr fun k hk => (h k hk).isLink] at hf
  obtain ⟨hq, rfl⟩ := hf.own fun k hk => by simp [(h k hk).ownEdge?_eq]
  obtain ⟨e, rfl⟩ := Option.isSome_iff_exists.mp hq
  have he : (members m).filterMap ownEdge? = (members m).map Term.edge :=
    filterMap_eq_map_iff_forall_eq_some.mpr fun k hk => (h k hk).ownEdge?_eq
  rwa [he, map_map] at ht

end Store

-- Empty details are left out of the graph.
def Node.trimmed (v : Node) : Node :=
  { v with altname := Graph.nonEmpty v.altname }

def EdgeSpec.trimmed (e : EdgeSpec) : EdgeSpec :=
  { e with article := Graph.nonEmpty e.article, code := Graph.nonEmpty e.code }

def Edge.told (e : Edge) : EdgeSpec :=
  ⟨e.name, e.sort, e.domain, e.codomain, e.article, e.code⟩

namespace Graph

variable {g : Graph} {a : String}

theorem nodes_foldl_addNode (vs : List Node) (g : Graph) :
    (vs.foldl addNode g).nodes.toList = g.nodes.toList ++ vs.map Node.trimmed := by
  induction vs generalizing g
  case nil => simp
  case cons v vs ih => simp [ih, addNode, trimmed]

theorem numbersOf_eq (hd : (g.nodes.toList.map (·.name)).Nodup) (h : ∃ v ∈ g.nodes, v.name = a) :
    ∃ i, g.numbersOf a = [i] := by
  obtain ⟨v, hv, rfl⟩ := h
  obtain ⟨i, hi⟩ := Array.getElem?_of_mem hv
  have hin : g.nameOf i = some v.name := by simp [nameOf, hi]
  refine ⟨i, perm_singleton.mp ?_⟩
  refine (perm_ext_iff_of_nodup (nodup_range.filter _) (nodup_singleton i)).mpr ?_
  intro j
  rw [← numbersOf, nameOf_iff, mem_singleton]
  exact ⟨fun hj => nameOf_inj_of_nodup hd hj hin, fun hj => hj ▸ hin⟩

theorem told_foldl_addEdges {es : List EdgeSpec} (hd : (g.nodes.toList.map (·.name)).Nodup)
    (h : ∀ e ∈ es, (∃ v ∈ g.nodes, v.name = e.domain.name) ∧ ∃ v ∈ g.nodes, v.name = e.codomain.name) :
    (es.foldl addEdges g).edges.toList.map told =
      g.edges.toList.map told ++ es.map EdgeSpec.trimmed := by
  induction es generalizing g
  case nil => simp
  case cons e es ih =>
    obtain ⟨⟨hs, ht⟩, h⟩ := forall_mem_cons.mp h
    obtain ⟨i, hi⟩ := numbersOf_eq hd hs
    obtain ⟨j, hj⟩ := numbersOf_eq hd ht
    have he : (g.addEdges e).edges.toList.map told =
        g.edges.toList.map told ++ [e.trimmed] := by
      simp [addEdges, hi, hj, told, EdgeSpec.trimmed]
    rw [foldl_cons, ih (g := g.addEdges e) hd h, he]
    simp

end Graph

namespace Model

variable (m : Model)

theorem nodes_graph : m.graph.nodes.toList = ⟨"1", "One", none⟩ :: m.nodes.map Node.trimmed := by
  rw [graph, (foldl_addEdges m.edges (joined_nodes _)).right, Graph.nodes_foldl_addNode]
  rfl

-- Where no two nodes have the same name, there is one edge for each that was asked for.
theorem told_graph (hd : ("1" :: m.nodes.map (·.name)).Nodup)
    (h : ∀ e ∈ m.edges, (∃ v ∈ m.graph.nodes.toList, v.name = e.domain.name) ∧
      ∃ v ∈ m.graph.nodes.toList, v.name = e.codomain.name) :
    m.graph.edges.toList.map told = m.edges.map EdgeSpec.trimmed := by
  have hn := (foldl_addEdges m.edges (joined_nodes (⟨"1", "One", none⟩ :: m.nodes))).right
  have hg := nodes_graph m
  rw [graph, hn] at hg h
  rw [graph, Graph.told_foldl_addEdges, (foldl_addNode _ _).left]
  · rfl
  · rw [hg]
    simpa [Function.comp_def, trimmed] using hd
  · simpa only [Array.mem_def] using h

end Model

namespace Graph

-- There is a node for the type with a single member and one for each type of the catalogue, and an
-- edge for each element.
structure Stores (g : Graph) (c : Catalogue) : Prop where
  nodes  : g.nodes.toList.Perm
    (⟨"1", "One", none⟩ :: (c.kinds.filter isNode).map (trimmed ∘ node))
  edges  : (g.edges.toList.map told).Perm
    ((c.kinds.filter (!·.isNode)).map (EdgeSpec.trimmed ∘ edge))
  joined : g.Joined

end Graph

namespace Catalogue

variable (c : Catalogue)

theorem filter_classes (classes : List String) (b : Bool)
    (hn : ∀ cls ∈ nodeClasses, classes.contains cls = b)
    (he : ∀ cls ∈ ["ObjectTypeRelation", "Variable", "Constant"], classes.contains cls = !b) :
    (c.kinds.filter fun k => classes.contains k.className) = c.kinds.filter (·.isNode == b) := by
  refine filter_congr fun k hk => ?_
  obtain h | h := c.listed k hk
  case inl => rw [h.isNode, hn _ (by simpa [isNode] using h.isNode), Bool.true_beq]
  case inr => rw [h.not_isNode, he _ h.className_mem, Bool.false_beq]

theorem isNode_of_mem {k : Term} (h : k ∈ c.kinds.filter isNode) : k ∈ c.kinds ∧ k.IsNode := by
  obtain ⟨hk, hn⟩ := mem_filter.mp h
  refine ⟨hk, (c.listed k hk).resolve_right fun he => ?_⟩
  simp [he.not_isNode] at hn

theorem isEdge_of_mem {k : Term} (h : k ∈ c.kinds.filter (!·.isNode)) :
    k ∈ c.kinds ∧ k.IsEdge c.kinds := by
  obtain ⟨hk, hn⟩ := mem_filter.mp h
  refine ⟨hk, (c.listed k hk).resolve_left fun he => ?_⟩
  simp [he.isNode] at hn

theorem tells_fill : ∃ ts es : List Term, ts.Perm (c.kinds.filter isNode) ∧
    es.Perm (c.kinds.filter (!·.isNode)) ∧
    Store.Tells (Demonstration.fill c.kinds) (.clear :: .addNode ⟨"1", "One", none⟩ ::
      (ts.map (.addNode ∘ node) ++ es.map (.addEdges ∘ edge))) (some ()) := by
  obtain ⟨hkt, hpt⟩ := group_spec Demonstration.typeClasses c.kinds
  obtain ⟨hke, hpe⟩ := group_spec (Demonstration.elementClasses.filter fun cls =>
    !Demonstration.typeClasses.contains cls) c.kinds
  rw [c.filter_classes _ true (by decide) (by decide)] at hpt
  rw [c.filter_classes _ false (by decide) (by decide)] at hpe
  simp only [beq_true, beq_false] at hpt hpe
  have hn := tells_fillNodes hkt fun k hk => (c.isNode_of_mem (hpt.mem_iff.mp hk)).right
  have he := tells_fillEdges_of_isEdge hke fun k hk =>
    (c.isEdge_of_mem (hpe.mem_iff.mp hk)).right
  have hc : Store.Tells clear [.clear] (some ()) :=
    (tells_say _).bind (tells_print _)
  exact ⟨_, _, hpt, hpe, hc.bind (hn.bind he)⟩

theorem printed_perm : ((c.kinds.filter isNode).map printed ++
    (c.kinds.filter (!·.isNode)).map printed).Perm (c.kinds.map printed) := by
  rw [← map_append]
  exact (filter_append_perm _ _).map _

theorem exists_end {vs : List Node} {k : Term} (hv : vs.Perm
      (⟨"1", "One", none⟩ :: (c.kinds.filter isNode).map (trimmed ∘ node)))
    (h : k.IsEnd c.kinds) : ∃ v ∈ vs, v.name = k.printed ∧ v.sort = k.className := by
  simp only [hv.mem_iff]
  cases h
  case one => exact ⟨_, mem_cons_self, rfl, rfl⟩
  case node hk hn =>
    have hm := mem_map_of_mem (f := trimmed ∘ node)
      (mem_filter.mpr ⟨hk, hn.isNode⟩)
    exact ⟨_, mem_cons_of_mem _ hm, rfl, rfl⟩

-- Whatever was in the store before, it has then what the catalogue tells.
theorem stored : ∃ (log : Store.Log) (m : Model),
    run (Demonstration.fill c.kinds) = (.ok (), log) ∧
    m = { nodes := m.nodes, edges := m.edges } ∧
    (∀ g₀, log.statements.foldl Statement.apply g₀ = m.graph) ∧ m.graph.Stores c := by
  obtain ⟨ts, es, ht, he, h⟩ := c.tells_fill
  obtain ⟨_, h⟩ := h.run_ok {}
  let m : Model := { nodes := ts.map node, edges := es.map edge }
  refine ⟨_, m, h, rfl, fun g₀ => ?_, ?_⟩
  · simp only [m, Model.graph, foldl_cons, foldl_append, foldl_map]
    rfl
  have hn : m.graph.nodes.toList.Perm
      (⟨"1", "One", none⟩ :: (c.kinds.filter isNode).map (trimmed ∘ node)) := by
    rw [m.nodes_graph, map_map]
    exact (ht.map _).cons _
  have hd : ("1" :: m.nodes.map (·.name)).Nodup := by
    have hp : (m.nodes.map (·.name)).Perm ((c.kinds.filter isNode).map printed) := by
      rw [map_map]
      exact ht.map _
    refine ((hp.cons _).nodup_iff).mpr (nodup_cons.mpr ⟨?_, ?_⟩)
    · simpa using fun k hk _ => c.one k hk
    · exact (nodup_append.mp (c.printed_perm.nodup_iff.mpr c.nodup)).left
  have hends : ∀ e ∈ m.edges, (∃ v ∈ m.graph.nodes.toList, v.name = e.domain.name) ∧
      ∃ v ∈ m.graph.nodes.toList, v.name = e.codomain.name := by
    intro e hm
    obtain ⟨k, hk, rfl⟩ := mem_map.mp hm
    replace hk := (c.isEdge_of_mem (he.mem_iff.mp hk)).right
    cases hk
    case kind hd hc =>
      obtain ⟨v, hv, hvn, _⟩ := c.exists_end hn hd
      obtain ⟨w, hw, hwn, _⟩ := c.exists_end hn hc
      exact ⟨⟨v, hv, hvn⟩, w, hw, hwn⟩
  refine ⟨hn, ?_, m.joined_graph⟩
  rw [m.told_graph hd hends, map_map]
  exact he.map _

end Catalogue

end Inquiry
