import Mathlib
import Inquiry.Proofs.Session.Remembering

/-!
Storing the kinds of a domain and asking for them again. They come back as they were stored, in
whatever order they are asked for; the other name of an object type comes back if the type is asked
for before the elements that end at it.
-/

namespace Inquiry

open List Term KindClass SessionM EdgeSpec Store

theorem KindClass.ofLabel?_label (c : KindClass) : ofLabel? c.label = some c := by
  cases c <;> rfl

theorem KindClass.label_injective : Function.Injective KindClass.label := by
  intro c c' h
  exact Option.some.inj ((ofLabel?_label c).symm.trans (h ▸ ofLabel?_label c'))

namespace Term

def altname? (k : Term) : Option String := k.head?.bind (·.altname)
def article? (k : Term) : Option String := k.head?.bind (·.article)
def code? (k : Term) : Option String := k.head?.bind (·.code)

-- The term tells what is told of the kind `k`, its other name apart.
structure Retells (r k : Term) : Prop where
  className : r.className = k.className
  name      : r.name = k.name
  domain    : endOf r.domain? = endOf k.domain?
  codomain  : endOf r.codomain? = endOf k.codomain?
  article   : k.className = "Variable" → r.article? = Graph.nonEmpty k.article?
  code      : k.className = "Constant" → r.code? = Graph.nonEmpty k.code?

/-- One of the ends of an element goes by a name. -/
def endsAt (k : Term) (n : String) : Bool :=
  [k.domain?, k.codomain?].any fun x => (endOf x).any (·.name == n)

variable {ks : List Term} {k : Term}

theorem IsNode.endsAt (h : k.IsNode) (n : String) : k.endsAt n = false := by
  simp [Term.endsAt, h.endOf_eq]

theorem IsEdge.endsAt (h : k.IsEdge ks) (n : String) :
    k.endsAt n = (k.edge.domain.name == n || k.edge.codomain.name == n) := by
  simp [Term.endsAt, h.endOf_domain?, h.endOf_codomain?]

theorem IsEdge.of_told (h : k.IsEdge ks) {e : Edge} (he : e.told = k.edge.trimmed) :
    e.name = k.printed ∧ e.domain = k.edge.domain ∧ e.codomain = k.edge.codomain := by
  refine ⟨?_, congrArg EdgeSpec.domain he, congrArg EdgeSpec.codomain he⟩
  cases h
  exact congrArg EdgeSpec.name he

end Term

theorem Node.Shown.endOf_eq {v : Node} {own : Bool} {k : Term} (h : v.Shown own k) :
    endOf (.ok (some k)) = some ⟨v.name, v.sort⟩ := by
  cases h
  case kind hl _ hn _ => simp [endOf, Term.name, Term.className, hl, hn]

namespace Graph.Stores

variable {g : Graph} {c : Catalogue} {k : Term} {v : Node} {e : Edge}

theorem mem_node (h : g.Stores c) (hv : v ∈ g.nodes) :
    v = ⟨"1", "One", none⟩ ∨ ∃ k ∈ c.kinds, k.IsNode ∧ v = k.node.trimmed := by
  have hv := h.nodes.mem_iff.mp (Array.mem_def.mp hv)
  refine (mem_cons.mp hv).imp_right fun hv => ?_
  obtain ⟨k, hk, rfl⟩ := mem_map.mp hv
  exact ⟨k, (c.isNode_of_mem hk).left, (c.isNode_of_mem hk).right, rfl⟩

theorem node_mem (h : g.Stores c) (hk : k ∈ c.kinds) (hn : k.IsNode) : k.node.trimmed ∈ g.nodes := by
  have hm : k.node.trimmed ∈ (c.kinds.filter isNode).map (Node.trimmed ∘ node) :=
    mem_map.mpr ⟨k, mem_filter.mpr ⟨hk, hn.isNode⟩, rfl⟩
  exact Array.mem_def.mpr (h.nodes.mem_iff.mpr (mem_cons_of_mem _ hm))

theorem mem_edge (h : g.Stores c) (he : e ∈ g.edges) :
    ∃ k ∈ c.kinds, k.IsEdge c.kinds ∧ e.told = k.edge.trimmed := by
  have hm := h.edges.mem_iff.mp (mem_map_of_mem (f := Edge.told) (Array.mem_def.mp he))
  obtain ⟨k, hk, hke⟩ := mem_map.mp hm
  exact ⟨k, (c.isEdge_of_mem hk).left, (c.isEdge_of_mem hk).right, hke.symm⟩

theorem edge_mem (h : g.Stores c) (hk : k ∈ c.kinds) (he : k.IsEdge c.kinds) :
    ∃ e ∈ g.edges, e.told = k.edge.trimmed := by
  have hm : k.edge.trimmed ∈
      (c.kinds.filter (!·.isNode)).map (trimmed ∘ edge) :=
    mem_map.mpr ⟨k, mem_filter.mpr ⟨hk, by simp [he.not_isNode]⟩, rfl⟩
  obtain ⟨e, he, hek⟩ := mem_map.mp (h.edges.mem_iff.mpr hm)
  exact ⟨e, Array.mem_def.mpr he, hek⟩

theorem names_nodup (h : g.Stores c) :
    (g.nodes.toList.map (·.name) ++ g.edges.toList.map (·.name)).Nodup := by
  have hv : (g.nodes.toList.map (·.name)).Perm
      ("1" :: (c.kinds.filter isNode).map printed) := by
    simpa [Function.comp_def, Node.trimmed, node] using h.nodes.map (·.name)
  have he : (g.edges.toList.map (·.name)).Perm ((c.kinds.filter (!·.isNode)).map printed) := by
    have hn : ((c.kinds.filter (!·.isNode)).map (trimmed ∘ edge)).map (·.name) =
        (c.kinds.filter (!·.isNode)).map Term.printed := by
      rw [map_map]
      refine map_congr_left fun k hk => ?_
      obtain ⟨_, hk⟩ := c.isEdge_of_mem hk
      cases hk
      rfl
    rw [← hn]
    simpa [Function.comp_def, Edge.told] using h.edges.map (·.name)
  have hp := (hv.append he).trans (c.printed_perm.cons "1")
  exact hp.nodup_iff.mpr (nodup_cons.mpr ⟨by simpa using c.one, c.nodup⟩)

theorem exists_source (h : g.Stores c) (he : e ∈ g.edges) :
    ∃ v ∈ g.nodes, v.name = e.domain.name ∧ v.sort = e.domain.sort := by
  obtain ⟨k, -, hk, hek⟩ := h.mem_edge he
  cases hk
  case kind hd _ =>
    obtain ⟨v, hv, hn, hs⟩ := c.exists_end h.nodes hd
    have hed : e.domain = _ := congrArg EdgeSpec.domain hek
    exact ⟨v, Array.mem_def.mpr hv, hed ▸ hn, hed ▸ hs⟩

theorem exists_target (h : g.Stores c) (he : e ∈ g.edges) :
    ∃ v ∈ g.nodes, v.name = e.codomain.name ∧ v.sort = e.codomain.sort := by
  obtain ⟨k, -, hk, hek⟩ := h.mem_edge he
  cases hk
  case kind hd =>
    obtain ⟨v, hv, hn, hs⟩ := c.exists_end h.nodes hd
    have hed : e.codomain = _ := congrArg EdgeSpec.codomain hek
    exact ⟨v, Array.mem_def.mpr hv, hed ▸ hn, hed ▸ hs⟩

theorem namesType (h : g.Stores c) (hv : v ∈ g.nodes) : NamesType v.sort := by
  have hs : v.sort ∈ "One" :: Store.nodeClasses := by
    obtain rfl | ⟨k, -, hk, rfl⟩ := h.mem_node hv
    case inl => exact mem_cons_self
    case inr =>
      cases hk
      case kind hk => exact mem_cons_of_mem _ hk
  generalize v.sort = sort at hs
  simp only [nodeClasses, mem_cons, not_mem_nil, or_false] at hs
  obtain rfl | rfl | rfl | rfl | rfl := hs <;> exact ⟨_, rfl, rfl, rfl⟩

theorem telling (h : g.Stores c) : g.Telling where
  distinct := h.names_nodup
  types v hv := h.namesType hv
  elements e he := by
    obtain ⟨k, -, hk, hek⟩ := h.mem_edge he
    cases hk
    case kind hd ty d c' s hc ho _ _ =>
      have hsort : e.sort = hd.cls.label := congrArg EdgeSpec.sort hek
      refine ⟨hd.cls, ?_, fun hcls => ?_⟩
      · simp only [mem_cons, not_mem_nil, or_false] at hc
        rw [hsort]
        obtain hc | hc | hc := hc <;> rw [hc] <;> exact ⟨rfl, rfl, rfl⟩
      · rw [show e.domain = d.endName from congrArg EdgeSpec.domain hek, ho hcls]
        rfl
  source e he := by
    obtain ⟨v, hv, _, hs⟩ := h.exists_source he
    exact ⟨(h.joined e he).left, hs ▸ h.namesType hv⟩
  target e he := by
    obtain ⟨v, hv, _, hs⟩ := h.exists_target he
    exact ⟨(h.joined e he).right, hs ▸ h.namesType hv⟩
  one v hv hn := by
    obtain rfl | ⟨k, -, hk, rfl⟩ := h.mem_node hv
    case inl => exact absurd rfl hn
    case inr =>
      cases hk
      case kind hd _ _ _ _ hk =>
        intro hs
        replace hs : hd.cls.label = "One" := hs
        simp [hs, nodeClasses] at hk
  source_sort e he := h.exists_source he
  target_sort e he := h.exists_target he

theorem name_ne (h : g.Stores c) (he : e ∈ g.edges) : e.name ≠ "1" ∧ e.name ≠ "getal" := by
  obtain ⟨k, hk, hke, hek⟩ := h.mem_edge he
  rw [(hke.of_told hek).left]
  refine ⟨c.one k hk, fun hg => ?_⟩
  have hc := hke.className_mem
  simp [c.number k hk hg] at hc

end Graph.Stores

namespace SessionM

open Session

variable {g : Graph} {c : Catalogue} {s s' : Session} {past : List (String × Bool)}

def given : List (String × Bool) := [("1", true), ("getal", true)]

theorem remembers_first {number : Term} (hg : g.Stores c) (hs : s.graph = g)
    (hn : Term.make 1 { cls := .quantity, name := "getal" } = .ok number)
    (hk : s.known = (({} : Session).know "1" .one |>.know "getal" number).known) :
    s.Remembers g given := by
  have hone : s.known["1"]? = some .one := by rw [hk, known_know_of_ne _ _ (by decide), known_know]
  refine ⟨hs, hone, fun v hv => ?_, fun e he k hke => ?_⟩
  · obtain rfl | ⟨k, hkc, hkn, rfl⟩ := hg.mem_node hv
    case inl => exact .inr ⟨true, .one, rfl, hone, .kind rfl rfl rfl rfl⟩
    case inr =>
      have ho : k.printed ≠ "1" := c.one k hkc
      by_cases hp : k.printed = "getal"
      case pos =>
        -- It is a quantity, whose other name does not matter.
        obtain ⟨number', hs, hm⟩ := Node.exists_shown (v := k.node.trimmed) (c := .quantity) 1 true
          (c.number k hkc hp).symm rfl (by decide)
        obtain rfl : number' = number := by
          refine Except.ok.inj (hm.symm.trans (Eq.trans ?_ hn))
          rw [show k.node.trimmed.name = "getal" from hp]
          rfl
        refine .inr ⟨true, number', ?_, ?_, hs⟩ <;> rw [show k.node.trimmed.name = "getal" from hp]
        · rfl
        · rw [hk, known_know]
      case neg =>
        refine .inl ⟨?_, known_of_first hk ho hp⟩
        simpa [given, lookup_eq_none_iff] using ⟨ho, hp⟩
  · obtain ⟨ho, hp⟩ := hg.name_ne he
    simp [known_of_first hk ho hp] at hke

theorem exists_start_empty (hg : g.Stores c) :
    ∃ s, Session.start {} = .ok s ∧ ({ s with graph := g } : Session).Remembers g given := by
  obtain ⟨number, first, hn, _, hm, hk, h⟩ := start_of_graph {} rfl
  have ht : first.graph.nodesOfSort "ObjectType" = [] := by
    rw [hm]
    rfl
  refine ⟨_, h [] [] first { first with designs := [] } gives_mapM_nil ?_,
    remembers_first hg rfl hn hk⟩
  rw [ht]
  exact gives_mapM_nil

theorem mapM_restore_meets (hg : g.Telling) {vs : List Node} (hv : ∀ v ∈ vs, v ∈ g.nodes)
    (h : s.Remembers g past) : ∃ ks s', (vs.mapM (restore ∘ .ofNode)).Gives s ks s' ∧
      s'.Remembers g (past ++ vs.map (·.name, true)) := by
  induction vs generalizing s past
  case nil => exact ⟨[], s, gives_mapM_nil, by simpa using h⟩
  case cons v vs ih =>
    obtain ⟨hv, hvs⟩ := forall_mem_cons.mp hv
    obtain ⟨k, s₁, hk, _, hr, _⟩ := restore_type hg h hv true
    obtain ⟨ks, s₂, hks, hr'⟩ := ih hvs hr
    exact ⟨k :: ks, s₂, .mapM_cons hk hks, by simpa using hr'⟩

theorem exists_start {m : Model} (hm : m = { nodes := m.nodes, edges := m.edges })
    (hg : m.graph.Stores c) : ∃ s, Session.start m = .ok s ∧ s.Remembers m.graph
      (given ++ (m.graph.nodesOfSort "ObjectType").map (·.name, true)) := by
  have hd : m.designs = [] := by rw [hm]
  obtain ⟨number, first, hn, _, hs, hk, h⟩ := start_of_graph m (hd ▸ hm)
  have hr : ({ first with designs := [] } : Session).Remembers m.graph given :=
    remembers_first hg hs hn hk
  have hv : ∀ v ∈ m.graph.nodesOfSort "ObjectType", v ∈ m.graph.nodes := fun v hv =>
    Array.mem_def.mpr (mem_of_mem_filter hv)
  obtain ⟨ks, s', hks, hr'⟩ := mapM_restore_meets hg.telling hv hr
  exact ⟨_, h [] ks first s' (hd ▸ gives_mapM_nil) (hs ▸ hks), hr'.of_eq rfl rfl⟩

end SessionM

namespace Session

variable {g : Graph} {c : Catalogue} {s : Session} {past : List (String × Bool)} {k r : Term}

theorem Remembers.retells_node (h : s.Remembers g past) (hg : g.Stores c) (hk : k ∈ c.kinds)
    (hn : k.IsNode) (hr : s.known[k.printed]? = some r) :
    ∃ own, past.lookup k.printed = some own ∧ r.Retells k ∧
      (k.className = "ObjectType" → r.altname? = if own then Graph.nonEmpty k.altname? else none) := by
  obtain ⟨own, hp, hs⟩ := h.exists_node (hg.node_mem hk hn) hr
  refine ⟨own, hp, ?_⟩
  cases hn
  case kind hd _ _ _ _ hc =>
    cases hs
    case kind hd' hl ht hname halt =>
      have hcls : hd'.cls = hd.cls := label_injective hl
      rw [hcls] at ht halt
      have he : hd.cls.isElement = false := by simp [isElement, ht]
      have hno : hd.cls.label ∉ ["Variable", "Constant"] := by
        intro hm
        simp only [mem_cons, not_mem_nil, or_false] at hm
        obtain hm | hm := hm <;> simp [hm, nodeClasses] at hc
      refine ⟨⟨hl, congrArg Except.ok hname, ?_, ?_, fun hv => ?_, fun hv => ?_⟩, fun ho => ?_⟩
      · simp [domain?, hcls, he]
      · simp [codomain?, hcls, he]
      · exact absurd (show hd.cls.label = "Variable" from hv) fun hv => by simp [hv] at hno
      · exact absurd (show hd.cls.label = "Constant" from hv) fun hv => by simp [hv] at hno
      · have ho : hd.cls = .objectType := label_injective ho
        simpa [ho, hcls, Term.altname?, Term.head?, Node.trimmed, Term.node] using halt

theorem Remembers.retells_edge (h : s.Remembers g past) (hg : g.Stores c) (hk : k ∈ c.kinds)
    (he : k.IsEdge c.kinds) (hr : s.known[k.printed]? = some r) : r.Retells k := by
  obtain ⟨e, hem, hek⟩ := hg.edge_mem hk he
  cases he
  case kind hd ty d c' t hc ho hdom hcod =>
    have hname : e.name = hd.name := congrArg EdgeSpec.name hek
    have hsort : e.sort = hd.cls.label := congrArg EdgeSpec.sort hek
    have hdomain : e.domain = d.endName := congrArg EdgeSpec.domain hek
    have hcodomain : e.codomain = c'.endName := congrArg EdgeSpec.codomain hek
    have harticle : e.article = Graph.nonEmpty hd.article := congrArg article hek
    have hcode : e.code = Graph.nonEmpty (if hd.cls = .constant then hd.code else none) :=
      congrArg code hek
    obtain ⟨d₁, c₁, hd₁, hc₁, hs⟩ := h.edge e hem r (hname ▸ hr)
    obtain ⟨v, hv, hvn, hvs⟩ := hg.exists_source hem
    obtain ⟨w, hw, hwn, hws⟩ := hg.exists_target hem
    obtain ⟨_, _, hds⟩ := h.exists_node hv (hvn ▸ hd₁)
    obtain ⟨_, _, hcs⟩ := h.exists_node hw (hwn ▸ hc₁)
    cases hs
    case kind hd' ty' hl hn hel hart hcod' =>
      have hcls : hd'.cls = hd.cls := label_injective (hl.trans hsort)
      have hel' : hd.cls.isElement := hcls ▸ hel
      refine ⟨hl.trans hsort, congrArg Except.ok (hn.trans hname), ?_, ?_, fun hv => ?_, fun hv => ?_⟩
      · simp only [domain?, hel, hel', if_true, hds.endOf_eq, hdom.endOf_eq, hvn, hvs, ← hdomain]
      · simp only [codomain?, hel, hel', if_true, hcs.endOf_eq, hcod.endOf_eq, hwn, hws,
          ← hcodomain]
      · have hv : hd.cls = .variable := label_injective hv
        simpa [Term.article?, Term.head?, hcls, hv, harticle] using hart
      · have hv : hd.cls = .constant := label_injective hv
        simpa [Term.code?, Term.head?, hcls, hv, hcode] using hcod'

end Session

namespace Catalogue

variable (c : Catalogue) {g : Graph}

/-- The type `n` is met when `name` is asked for: it is that type, or an element that ends at it. -/
def mentions (name n : String) : Bool :=
  name == n || c.kinds.any fun k => k.printed == name && k.endsAt n

variable {c}

theorem mentions_iff (hg : g.Stores c) {name n : String} : c.mentions name n ↔
    name = n ∨ ∃ e ∈ g.edges, e.name = name ∧ (e.domain.name = n ∨ e.codomain.name = n) := by
  simp only [mentions, Bool.or_eq_true, beq_iff_eq, any_eq_true, Bool.and_eq_true]
  refine or_congr_right ⟨?_, ?_⟩
  · rintro ⟨k, hk, rfl, hn⟩
    have hke : k.IsEdge c.kinds := by
      refine (c.listed k hk).resolve_left fun hkn => ?_
      simp [hkn.endsAt] at hn
    obtain ⟨e, he, hek⟩ := hg.edge_mem hk hke
    obtain ⟨hname, hd, hc⟩ := hke.of_told hek
    exact ⟨e, he, hname, by simpa [hke.endsAt, ← hd, ← hc] using hn⟩
  · rintro ⟨e, he, rfl, hn⟩
    obtain ⟨k, hk, hke, hek⟩ := hg.mem_edge he
    obtain ⟨hname, hd, hc⟩ := hke.of_told hek
    exact ⟨k, hk, hname.symm, by simpa [hke.endsAt, ← hd, ← hc] using hn⟩

theorem lookup_meets (hg : g.Stores c) {v : Node} (hv : v ∈ g.nodes) (name : String) :
    (g.meets name).lookup v.name =
      if c.mentions name v.name then some (name == v.name) else none := by
  rw [Graph.meets]
  cases hn : g.node? name
  case some w =>
    obtain rfl : w.name = name := by simpa using Array.find?_some hn
    have hw : w ∈ g.nodes := Array.mem_of_find?_eq_some hn
    have hm : c.mentions w.name v.name ↔ w.name = v.name := by
      rw [mentions_iff hg]
      refine or_iff_left ?_
      rintro ⟨e, he, hne, _⟩
      exact hg.telling.name_ne hw he hne.symm
    by_cases h : w.name = v.name
    case pos => rw [if_pos (hm.mpr h)]; simp [h]
    case neg => rw [if_neg (mt hm.mp h)]; simp [Ne.symm h]
  case none =>
    have hne : name ≠ v.name := by
      rintro rfl
      exact Graph.node?_ne_none hv hn
    cases he : g.edge? name
    case some e =>
      obtain rfl : e.name = name := by simpa using Array.find?_some he
      have hem : e ∈ g.edges := Array.mem_of_find?_eq_some he
      have hm : c.mentions e.name v.name ↔ e.domain.name = v.name ∨ e.codomain.name = v.name := by
        rw [mentions_iff hg, or_iff_right hne]
        refine ⟨?_, fun h => ⟨e, hem, rfl, h⟩⟩
        rintro ⟨e', he', hee, h⟩
        exact hg.telling.edge_eq he' hem hee ▸ h
      rw [beq_false_of_ne hne]
      by_cases h : e.domain.name = v.name ∨ e.codomain.name = v.name
      case pos =>
        rw [if_pos (hm.mpr h)]
        obtain h | h := h
        case inl => simp [h]
        case inr => cases hd : v.name == e.domain.name <;> simp [List.lookup, h, hd]
      case neg =>
        rw [if_neg (mt hm.mp h)]
        obtain ⟨hd, hc⟩ := not_or.mp h
        simp [Ne.symm hd, Ne.symm hc]
    case none =>
      have hm : ¬c.mentions name v.name := by
        rw [mentions_iff hg, or_iff_right hne]
        rintro ⟨e, hem, rfl, _⟩
        exact Graph.edge?_ne_none hem he
      rw [if_neg hm]
      rfl

theorem lookup_flatMap_meets (hg : g.Stores c) {v : Node} (hv : v ∈ g.nodes) (names : List String) :
    (names.flatMap g.meets).lookup v.name =
      (names.find? (c.mentions · v.name)).map (· == v.name) := by
  induction names
  case nil => rfl
  case cons name names ih =>
    rw [flatMap_cons, lookup_append, lookup_meets hg hv, ih, find?_cons]
    cases c.mentions name v.name <;> simp

/-- In whatever order names are asked for in the session, the kinds of the catalogue that go by them
are told again. The other name of an object type is told if it was kept. -/
def Retold (c : Catalogue) (s : Session) (kept : List String → String → Prop) : Prop :=
  ∀ names, ∃ rs s', (names.mapM kindNamed).Gives s rs s' ∧
    Forall₂ (fun name r => ∀ k ∈ c.kinds, k.printed = name → r.Retells k ∧
      (k.className = "ObjectType" → (r.altname? = Graph.nonEmpty k.altname? ↔
        Graph.nonEmpty k.altname? = none ∨ kept names name))) names rs

theorem retold {s : Session} {past : List (String × Bool)} {kept : List String → String → Prop}
    (hg : g.Stores c) (h : s.Remembers g past)
    (hk : ∀ names, ∀ k ∈ c.kinds, k.className = "ObjectType" →
      ((past ++ names.flatMap g.meets).lookup k.printed = some true ↔ kept names k.printed)) :
    c.Retold s kept := by
  intro names
  obtain ⟨rs, s', hrs, _, hr, ha⟩ := mapM_kindNamed_meets hg.telling h names
  refine ⟨rs, s', hrs, ha.imp ?_⟩
  rintro name r hname k hkc rfl
  obtain hn | he := c.listed k hkc
  case inl =>
    have hknown := hname (.inl (Graph.node?_ne_none (hg.node_mem hkc hn)))
    obtain ⟨own, hp, hret, halt⟩ := hr.retells_node hg hkc hn hknown
    refine ⟨hret, fun ho => ?_⟩
    rw [halt ho, ← hk names k hkc ho, hp]
    cases own
    case true  => simp
    case false => simp [eq_comm]
  case inr =>
    obtain ⟨e, hem, hek⟩ := hg.edge_mem hkc he
    have hname' := (he.of_told hek).left
    have hknown := hname (.inr (hname' ▸ Graph.edge?_ne_none hem))
    refine ⟨hr.retells_edge hg hkc he hknown, fun ho => ?_⟩
    have hc := he.className_mem
    simp [ho] at hc

theorem isNode_of_objectType {k : Term} (hk : k ∈ c.kinds) (ho : k.className = "ObjectType") :
    k.IsNode := by
  refine (c.listed k hk).resolve_right fun he => ?_
  have hc := he.className_mem
  simp [ho] at hc

theorem lookup_given {k : Term} (hk : k ∈ c.kinds) (ho : k.className = "ObjectType") :
    given.lookup k.printed = none := by
  have hn : k.printed ≠ "getal" := by
    intro hn
    simp [c.number k hk hn] at ho
  simpa [given, lookup_eq_none_iff] using ⟨c.one k hk, hn⟩

theorem ofText_endText_iff {k : Term} (hk : k.IsEnd c.kinds) :
    Record.ofText (Statement.endText k.endName) = .ok (.ofEnd k.endName) ↔
      Json.printable k.printed := by
  have hsort (cls : KindClass) : Json.Unquoted cls.label ∧ Json.printable cls.label := by
    cases cls <;> simp [Json.Unquoted, Json.printable, label]
  have hk : Json.Unquoted k.printed ∧ ∃ cls : KindClass, k.className = cls.label := by
    cases hk
    case one => exact ⟨by simp [Json.Unquoted, Term.printed, Term.one], .one, rfl⟩
    case node hk hn =>
      refine ⟨c.plain k hk, ?_⟩
      cases hn
      exact ⟨_, rfl⟩
  obtain ⟨hn, cls, hcls⟩ := hk
  obtain ⟨hu, hp⟩ := hsort cls
  rw [← hcls] at hu hp
  exact (Record.ofText_endText_iff (e := k.endName) hn hu).trans (and_iff_left hp)

theorem lookup_map_true {vs : List Node} {v : Node} (hv : v ∈ vs) :
    (vs.map (·.name, true)).lookup v.name = some true := by
  induction vs
  case nil => simp at hv
  case cons w vs ih =>
    cases hw : v.name == w.name
    case true => simp [List.lookup, hw]
    case false =>
      have hne : v ≠ w := by
        rintro rfl
        simp at hw
      simpa [List.lookup, hw] using ih ((mem_cons.mp hv).resolve_left hne)

/-- A store is filled with the kinds of a catalogue, and asked for them again. -/
theorem filled_store_retells (c : Catalogue) :
    ∃ log : Store.Log, Store.run (Demonstration.fill c.kinds) = (.ok (), log) ∧
      (∀ k ∈ c.kinds, ∀ e, some e ∈ [Store.endOf k.domain?, Store.endOf k.codomain?] →
        (Record.ofText (Statement.endText e) = .ok (.ofEnd e) ↔ Json.printable e.name)) ∧
      (∃ s, Session.start {} = .ok s ∧
        c.Retold { s with graph := log.statements.foldl Statement.apply s.graph }
          fun names n => names.find? (c.mentions · n) = some n) ∧
      ∃ m s, (∀ g, log.statements.foldl Statement.apply g = m.graph) ∧ Session.start m = .ok s ∧
        c.Retold s fun _ _ => True := by
  obtain ⟨log, m, hrun, hm, hgraph, hg⟩ := c.stored
  refine ⟨log, hrun, fun k hk e he => ?_, ?_, m, ?_⟩
  · obtain hn | hke := c.listed k hk
    case inl => simp [hn.endOf_eq] at he
    case inr =>
      rw [hke.endOf_domain?, hke.endOf_codomain?] at he
      cases hke
      case kind hd hc =>
        obtain he | he : e = _ ∨ e = _ := by simpa using he
        case inl => exact he ▸ ofText_endText_iff hd
        case inr => exact he ▸ ofText_endText_iff hc
  · obtain ⟨s, hs, hr⟩ := SessionM.exists_start_empty hg
    refine ⟨s, hs, hgraph _ ▸ retold hg hr fun names k hk ho => ?_⟩
    rw [List.lookup_append, lookup_given hk ho, Option.none_or]
    have hv := hg.node_mem hk (isNode_of_objectType hk ho)
    rw [show k.printed = k.node.trimmed.name from rfl, lookup_flatMap_meets hg hv]
    simp
  · obtain ⟨s, hs, hr⟩ := SessionM.exists_start hm hg
    refine ⟨s, hgraph, hs, retold hg hr fun names k hk ho => iff_true_intro ?_⟩
    have hv := hg.node_mem hk (isNode_of_objectType hk ho)
    have hmem : k.node.trimmed ∈ m.graph.nodesOfSort "ObjectType" :=
      List.mem_filter.mpr ⟨Array.mem_def.mp hv, beq_iff_eq.mpr ho⟩
    have hl := lookup_map_true hmem
    rw [List.lookup_append, List.lookup_append, lookup_given hk ho, Option.none_or,
      show k.printed = k.node.trimmed.name from rfl, hl, Option.some_or]

namespace Persons

def person : Term :=
  .kind { serial := 1, id := .fresh 1, cls := .objectType, name := "persoon", sort := .objectType,
          altname := "personen" } none none none none

def number : Term :=
  .kind { serial := 2, id := .fresh 2, cls := .quantity, name := "getal", sort := .quantity }
    none none none none

def one : Term :=
  .kind { serial := 3, id := .fresh 3, cls := .variable, name := "een(persoon)", sort := .variable }
    (some (.app 4 .functionalType [person, number] none)) (some person) (some number) none

def persons : Catalogue where
  kinds  := [person, number, one]
  listed := by
    have hp : person.IsNode := .kind (by decide)
    have hn : number.IsNode := .kind (by decide)
    have ho : one.IsEdge [person, number, one] :=
      .kind (by decide) (by simp) (.node (by simp) hp) (.node (by simp) hn)
    simpa using ⟨.inl hp, .inl hn, .inr ho⟩
  nodup  := by decide
  one    := by simp [person, number, one, printed]
  number := by simp [person, number, one, printed, className, label]
  plain  := by simp [person, number, one, printed, Json.Unquoted]

-- When the variable is asked for first, the plural of the object type is lost.
theorem plural_lost : ∃ log s, Store.run (Demonstration.fill persons.kinds) = (.ok (), log) ∧
    Session.start {} = .ok s ∧
    let s : Session := { s with graph := log.statements.foldl Statement.apply s.graph }
    (∃ v p s', (["een(persoon)", "persoon"].mapM SessionM.kindNamed).Gives s [v, p] s' ∧
      p.altname? ≠ some "personen") ∧
    ∃ v p s', (["persoon", "een(persoon)"].mapM SessionM.kindNamed).Gives s [p, v] s' ∧
      p.altname? = some "personen" := by
  obtain ⟨log, hrun, _, ⟨s, hs, h⟩, _⟩ := filled_store_retells persons
  have halt : Graph.nonEmpty person.altname? = some "personen" := by decide
  have hone : persons.mentions "een(persoon)" "persoon" := by decide
  have hself : persons.mentions "persoon" "persoon" := by decide
  refine ⟨log, s, hrun, hs, ?_, ?_⟩
  · obtain ⟨rs, s', hrs, hall⟩ := h ["een(persoon)", "persoon"]
    cases hall
    case cons v _ _ hall =>
      cases hall
      case cons p _ hp hall =>
        cases hall
        have hiff := (hp person (by simp [persons]) rfl).right rfl
        rw [halt] at hiff
        exact ⟨v, p, s', hrs, fun ha => by simpa [hone] using hiff.mp ha⟩
  · obtain ⟨rs, s', hrs, hall⟩ := h ["persoon", "een(persoon)"]
    cases hall
    case cons p _ hp hall =>
      cases hall
      case cons v _ _ hall =>
        cases hall
        have hiff := (hp person (by simp [persons]) rfl).right rfl
        rw [halt] at hiff
        exact ⟨v, p, s', hrs, hiff.mpr (by simp [hself])⟩

end Persons

end Catalogue

end Inquiry
