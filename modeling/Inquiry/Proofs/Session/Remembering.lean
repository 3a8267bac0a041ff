import Mathlib
import Inquiry.Proofs.Graph.Filling
import Inquiry.Proofs.Session.Naming

/-!
What is remembered of a graph when its kinds are asked for one after the other. A type is made when
it is met for the first time. If it is met as the end of an element, then its other name is not at
hand, and it stays away.
-/

namespace Inquiry

open List

-- The kind of a node. Its other name is there if the node was met by itself.
inductive Node.Shown (v : Node) (own : Bool) : Term → Prop
  | kind {h} : h.cls.label = v.sort → h.cls.isType → h.name = v.name →
    (h.altname = if own ∧ h.cls = .objectType then v.altname else none) →
      Shown v own (.kind h none none none none)

theorem Node.Shown.typeKind {v : Node} {own : Bool} {k : Term} (h : v.Shown own k) :
    k.TypeKind := by
  cases h
  case kind ht _ _ => exact ⟨_, _, _, _, _, rfl, ht⟩

theorem Node.exists_shown {v : Node} {c : KindClass} (n : Nat) (own : Bool) (hc : c.label = v.sort)
    (ht : c.isType) (ho : c ≠ .one) : ∃ k, v.Shown own k ∧
      Term.make n (SessionM.typeSpec v.name c (if own then v.altname else none)) = .ok k := by
  refine ⟨_, ?_, Term.make_type_eq n _ ht rfl rfl⟩
  refine .kind hc ht (if_neg ho) ?_
  cases own <;> simp [KindSpec.head, SessionM.typeSpec]

-- The kind of an edge between the types `d` and `c`.
inductive Edge.Shown (e : Edge) (d c : Term) : Term → Prop
  | kind {h ty} : h.cls.label = e.sort → h.name = e.name → h.cls.isElement →
    (h.article = if h.cls = .variable then e.article else none) →
    (h.code = if h.cls = .constant then e.code else none) →
      Shown e d c (.kind h ty (some d) (some c) none)

theorem Edge.exists_shown {e : Edge} {d c : Term} {cls : KindClass} (n : Nat)
    (hc : cls.label = e.sort) (he : cls.isElement) (hd : d.TypeKind) (hcd : c.TypeKind)
    (ho : cls = .constant → d = .one) : ∃ k, e.Shown d c k ∧
      Term.make n (SessionM.edgeSpec e cls d c) = .ok k := by
  refine ⟨_, ?_, Term.make_element_eq n _ he rfl rfl hd.present hcd.present hd hcd ho⟩
  exact .kind hc rfl he (by simp [KindSpec.head, SessionM.edgeSpec])
    (by simp [KindSpec.head, SessionM.edgeSpec])

namespace Graph

-- Kinds can be made of all nodes and edges, and edges tell the sorts of their ends. Only the type
-- with a single member is of its sort.
structure Telling (g : Graph) : Prop extends Sound g where
  one    : ∀ v ∈ g.nodes, v.name ≠ "1" → v.sort ≠ "One"
  source_sort : ∀ e ∈ g.edges, ∃ v ∈ g.nodes, v.name = e.domain.name ∧ v.sort = e.domain.sort
  target_sort : ∀ e ∈ g.edges, ∃ v ∈ g.nodes, v.name = e.codomain.name ∧ v.sort = e.codomain.sort

variable {g : Graph}

theorem Sound.node_eq (h : g.Sound) {v w : Node} (hv : v ∈ g.nodes) (hw : w ∈ g.nodes)
    (hn : v.name = w.name) : v = w :=
  inj_on_of_nodup_map (nodup_append.mp h.distinct).1 (by simpa using hv)
    (by simpa using hw) hn

/-- The types that are met when a name is asked for, and whether this is by themselves. -/
def meets (g : Graph) (name : String) : List (String × Bool) :=
  match g.node? name, g.edge? name with
  | some v, _    => [(v.name, true)]
  | none, some e => [(e.domain.name, false), (e.codomain.name, false)]
  | none, none   => []

end Graph

namespace Session

variable {g : Graph} {past more : List (String × Bool)} {s s' : Session} {v : Node}

-- The types in `past` were met in this order.
structure Remembers (g : Graph) (past : List (String × Bool)) (s : Session) : Prop where
  graph : s.graph = g
  one   : s.known["1"]? = some .one
  node  : ∀ v ∈ g.nodes, past.lookup v.name = none ∧ s.known[v.name]? = none ∨
    ∃ own k, past.lookup v.name = some own ∧ s.known[v.name]? = some k ∧ v.Shown own k
  edge  : ∀ e ∈ g.edges, ∀ k, s.known[e.name]? = some k → ∃ d c,
    s.known[e.domain.name]? = some d ∧ s.known[e.codomain.name]? = some c ∧ e.Shown d c k

theorem Remembers.of_eq (h : s.Remembers g past) (hg : s'.graph = s.graph)
    (hk : s'.known = s.known) : s'.Remembers g past where
  graph := hg.trans h.graph
  one   := hk ▸ h.one
  node  := hk ▸ h.node
  edge  := hk ▸ h.edge

theorem Remembers.exists_node (h : s.Remembers g past) (hv : v ∈ g.nodes) {k : Term}
    (hk : s.known[v.name]? = some k) : ∃ own, past.lookup v.name = some own ∧ v.Shown own k := by
  obtain ⟨_, hn⟩ | ⟨own, k', hp, hk', hs⟩ := h.node v hv
  case inl => simp [hn] at hk
  case inr => exact ⟨own, hp, Option.some.inj (hk'.symm.trans hk) ▸ hs⟩

theorem Remembers.again (h : s.Remembers g past)
    (hm : ∀ p ∈ more, ∃ own, past.lookup p.1 = some own) : s.Remembers g (past ++ more) where
  graph := h.graph
  one   := h.one
  edge  := h.edge
  node v hv := by
    rw [lookup_append]
    obtain ⟨hp, hk⟩ | ⟨own, k, hp, hk⟩ := h.node v hv
    case inl =>
      refine .inl ⟨?_, hk⟩
      rw [hp, Option.none_or, lookup_eq_none_iff]
      intro p hpm
      obtain ⟨own, ho⟩ := hm p hpm
      have hne : v.name ≠ p.1 := by
        intro hvp
        simp [hvp, ho] at hp
      simp [hne]
    case inr => exact .inr ⟨own, k, by rw [hp, Option.some_or], hk⟩

theorem Remembers.know_node (h : s.Remembers g past) (hg : g.Telling) (hv : v ∈ g.nodes)
    (hn : s.known[v.name]? = none) {own : Bool} {k : Term} (hk : v.Shown own k) :
    (s.know v.name k).Remembers g (past ++ [(v.name, own)]) where
  graph := h.graph
  one   := (Later.know hn).known _ _ h.one
  node w hw := by
    rw [lookup_append]
    by_cases hwv : w.name = v.name
    case pos =>
      obtain rfl := hg.node_eq hw hv hwv
      obtain ⟨hp, _⟩ | ⟨_, _, _, hk', _⟩ := h.node w hw
      case inl => exact .inr ⟨own, k, by simp [hp], known_know .., hk⟩
      case inr => simp [hn] at hk'
    case neg =>
      have hl : List.lookup w.name [(v.name, own)] = none := by simp [hwv]
      rw [known_know_of_ne s k hwv, hl, Option.or_none]
      exact h.node w hw
  edge e he k' hk' := by
    rw [known_know_of_ne s k (hg.name_ne hv he).symm] at hk'
    obtain ⟨d, c, hd, hc, hs⟩ := h.edge e he k' hk'
    exact ⟨d, c, (Later.know hn).known _ _ hd, (Later.know hn).known _ _ hc, hs⟩

theorem Remembers.know_edge (h : s.Remembers g past) (hg : g.Telling) {e : Edge}
    (he : e ∈ g.edges) (hn : s.known[e.name]? = none) {d c k : Term}
    (hd : s.known[e.domain.name]? = some d) (hc : s.known[e.codomain.name]? = some c)
    (hk : e.Shown d c k) : (s.know e.name k).Remembers g past where
  graph := h.graph
  one   := (Later.know hn).known _ _ h.one
  node v hv := by
    rw [known_know_of_ne s k (hg.name_ne hv he)]
    exact h.node v hv
  edge e' he' k' hk' := by
    by_cases hee : e'.name = e.name
    case pos =>
      obtain rfl := hg.edge_eq he' he hee
      rw [known_know] at hk'
      obtain rfl := Option.some.inj hk'
      exact ⟨d, c, (Later.know hn).known _ _ hd, (Later.know hn).known _ _ hc, hk⟩
    case neg =>
      rw [known_know_of_ne s k hee] at hk'
      obtain ⟨d', c', hd', hc', hs⟩ := h.edge e' he' k' hk'
      exact ⟨d', c', (Later.know hn).known _ _ hd', (Later.know hn).known _ _ hc', hs⟩

end Session

namespace SessionM

open Session

variable {g : Graph} {past : List (String × Bool)} {s s' : Session} {v : Node} {e : Edge}

theorem restore_type (hg : g.Telling) (h : s.Remembers g past) (hv : v ∈ g.nodes) (own : Bool) :
    ∃ k s', (restore (typeRecord v.name v.sort (if own then v.altname else none))).Gives s k s' ∧
      s.Later s' ∧ s'.Remembers g (past ++ [(v.name, own)]) ∧ s'.known[v.name]? = some k ∧
      ∀ name ≠ v.name, s'.known[name]? = s.known[name]? := by
  cases hk : s.known[v.name]?
  case some k =>
    obtain ⟨own', hp, _⟩ := h.exists_node hv hk
    refine ⟨k, s, restore_of_known hk, .refl s, h.again ?_, hk, fun _ _ => rfl⟩
    exact forall_mem_singleton.mpr ⟨own', hp⟩
  case none =>
    obtain ⟨c, hc, ht, hb⟩ := hg.types v hv
    have hone : c ≠ .one := by
      rintro rfl
      refine hg.one v hv ?_ (KindClass.label_of_ofLabel? hc).symm
      intro hn
      simp [hn, h.one] at hk
    obtain ⟨k, hks, hmake⟩ := Node.exists_shown s.next own (KindClass.label_of_ofLabel? hc) ht hone
    have h' : s.numbered.Remembers g past := h.of_eq rfl rfl
    exact ⟨k, s.numbered.know v.name k, restore_made hk hc ht hb hmake,
      (Later.numbered s).trans (.know hk), h'.know_node hg hv hk hks, known_know ..,
      fun name hne => known_know_of_ne s.numbered k hne⟩

theorem restore_element (hg : g.Telling) (h : s.Remembers g past) (he : e ∈ g.edges) :
    ∃ k s', (restore (.ofEdge e)).Gives s k s' ∧ s.Later s' ∧
      s'.Remembers g (past ++ [(e.domain.name, false), (e.codomain.name, false)]) ∧
      s'.known[e.name]? = some k := by
  obtain ⟨v, hv, hvn, hvs⟩ := hg.source_sort e he
  obtain ⟨w, hw, hwn, hws⟩ := hg.target_sort e he
  rw [← hvn, ← hwn]
  cases hk : s.known[e.name]?
  case some k =>
    obtain ⟨d, c, hd, hc, _⟩ := h.edge e he k hk
    obtain ⟨own, hp, _⟩ := h.exists_node hv (hvn ▸ hd)
    obtain ⟨own', hp', _⟩ := h.exists_node hw (hwn ▸ hc)
    refine ⟨k, s, restore_of_known hk, .refl s, h.again ?_, hk⟩
    exact forall_mem_cons.mpr ⟨⟨own, hp⟩, forall_mem_singleton.mpr ⟨own', hp'⟩⟩
  case none =>
    obtain ⟨cls, ⟨hc, ht, hb⟩, ho⟩ := hg.elements e he
    obtain ⟨d, s₁, hd, hl₁, hr₁, hk₁, hne₁⟩ := restore_type hg h hv false
    obtain ⟨c, s₂, hcd, hl₂, hr₂, hk₂, hne₂⟩ := restore_type hg hr₁ hw false
    have hl := hl₁.trans hl₂
    -- The ends are known by now, and the element is not.
    have hd₂ : s₂.known[v.name]? = some d := hl₂.known _ _ hk₁
    have hn : s₂.known[e.name]? = none := by
      rw [hne₂ _ (hg.name_ne hw he).symm, hne₁ _ (hg.name_ne hv he).symm, hk]
    have hone : cls = .constant → d = .one := by
      intro hcls
      rw [hvn, ho hcls, hr₂.one] at hd₂
      exact (Option.some.inj hd₂).symm
    obtain ⟨_, _, hds⟩ := hr₂.exists_node hv hd₂
    obtain ⟨_, _, hcs⟩ := hr₂.exists_node hw hk₂
    obtain ⟨k, hks, hmake⟩ := Edge.exists_shown s₂.next (KindClass.label_of_ofLabel? hc) ht
      hds.typeKind hcs.typeKind hone
    have hr : s₂.numbered.Remembers g (past ++ [(v.name, false), (w.name, false)]) := by
      rw [← singleton_append, ← append_assoc]
      exact hr₂.of_eq rfl rfl
    have hd : (restore (.ofEnd e.domain)).Gives s d s₁ := by
      rw [Record.ofEnd, ← hvn, ← hvs]
      exact hd
    have hcd : (restore (.ofEnd e.codomain)).Gives s₁ c s₂ := by
      rw [Record.ofEnd, ← hwn, ← hws]
      exact hcd
    exact ⟨k, s₂.numbered.know e.name k, restore_made_edge hk ⟨hc, ht, hb⟩ hd hcd hmake,
      hl.trans ((Later.numbered s₂).trans (.know hn)),
      hr.know_edge hg he hn (hvn ▸ hd₂) (hwn ▸ hk₂) hks, known_know ..⟩

-- Asking for a name is asking for its node, or else for its edge.
theorem gives_kindNamed_node {name : String} {k : Term} (hv : s.graph.node? name = some v)
    (h : (restore (.ofNode v)).Gives s k s') : (kindNamed name).Gives s k s' := by
  obtain rfl : v.name = name := by simpa using Array.find?_some hv
  refine gives_get_bind.mpr ?_
  cases hk : s.known[v.name]?
  case some k' =>
    obtain ⟨rfl, rfl⟩ := Gives.unique (restore_of_known hk) h
    simp
  case none =>
    refine gives_get_bind.mpr ?_
    rw [hv, Option.isSome_some, if_pos rfl, nodeKind]
    exact gives_get_bind.mpr (by simpa [hv] using h)

theorem gives_kindNamed_edge {name : String} {k : Term} (hv : s.graph.node? name = none)
    (he : s.graph.edge? name = some e) (h : (restore (.ofEdge e)).Gives s k s') :
    (kindNamed name).Gives s k s' := by
  obtain rfl : e.name = name := by simpa using Array.find?_some he
  refine gives_get_bind.mpr ?_
  cases hk : s.known[e.name]?
  case some k' =>
    obtain ⟨rfl, rfl⟩ := Gives.unique (restore_of_known hk) h
    simp
  case none =>
    refine gives_get_bind.mpr ?_
    rw [hv, Option.isSome_none, if_neg (by simp), edgeKind]
    exact gives_get_bind.mpr (by simpa [he] using h)

-- What a name is answered with is known from then on, if the graph tells of it.
def Answered (g : Graph) (s : Session) (name : String) (k : Term) : Prop :=
  g.node? name ≠ none ∨ g.edge? name ≠ none → s.known[name]? = some k

theorem kindNamed_meets (hg : g.Telling) (h : s.Remembers g past) (name : String) :
    ∃ k s', (kindNamed name).Gives s k s' ∧ s.Later s' ∧ s'.Remembers g (past ++ g.meets name) ∧
      Answered g s' name k := by
  rw [Graph.meets]
  cases hv : g.node? name
  case some v =>
    obtain rfl : v.name = name := by simpa using Array.find?_some hv
    obtain ⟨k, s', hk, hl, hr, hn, _⟩ := restore_type hg h (Array.mem_of_find?_eq_some hv) true
    exact ⟨k, s', gives_kindNamed_node (h.graph ▸ hv) hk, hl, hr, fun _ => hn⟩
  case none =>
    cases he : g.edge? name
    case some e =>
      obtain rfl : e.name = name := by simpa using Array.find?_some he
      obtain ⟨k, s', hk, hl, hr, hn⟩ := restore_element hg h (Array.mem_of_find?_eq_some he)
      exact ⟨k, s', gives_kindNamed_edge (h.graph ▸ hv) (h.graph ▸ he) hk, hl, hr, fun _ => hn⟩
    case none =>
      have hk : ∃ k, (kindNamed name).Gives s k s := by
        rw [kindNamed]
        cases hk : s.known[name]?
        case some k => exact ⟨k, gives_get_bind.mpr (by simp [hk])⟩
        case none =>
          refine ⟨.nothing, gives_get_bind.mpr ?_⟩
          simp only [hk]
          refine gives_get_bind.mpr ?_
          rw [h.graph, hv, Option.isSome_none, if_neg (by simp), edgeKind]
          exact gives_get_bind.mpr (by simp [h.graph, he])
      obtain ⟨k, hk⟩ := hk
      exact ⟨k, s, hk, .refl s, by simpa using h, by simp [Answered, hv, he]⟩

theorem mapM_kindNamed_meets (hg : g.Telling) (h : s.Remembers g past) (names : List String) :
    ∃ ks s', (names.mapM kindNamed).Gives s ks s' ∧ s.Later s' ∧
      s'.Remembers g (past ++ names.flatMap g.meets) ∧ Forall₂ (Answered g s') names ks := by
  induction names generalizing s past
  case nil => exact ⟨[], s, gives_mapM_nil, .refl s, by simpa using h, .nil⟩
  case cons name names ih =>
    obtain ⟨k, s₁, hk, hl, hr, ha⟩ := kindNamed_meets hg h name
    obtain ⟨ks, s₂, hks, hl', hr', has⟩ := ih hr
    refine ⟨k :: ks, s₂, .mapM_cons hk hks, hl.trans hl', by simpa using hr', .cons ?_ has⟩
    exact fun hn => hl'.known _ _ (ha hn)

end SessionM
end Inquiry
