import Mathlib
import Inquiry.Proofs.Graph.Trails
import Inquiry.Proofs.Term.Typing
import Inquiry.Session.Recall

/-!
What is known in a session. Under the name of a node a type is known, and under the name of an edge
an element between the types of its ends. What is recalled from the graph keeps that so, whatever
was recalled before.
-/

namespace Inquiry

open List Term KindClass SessionM

namespace Term

def TypeKind (k : Term) : Prop :=
  ∃ h ty d c s, k = .kind h ty d c s ∧ h.cls.isType

structure ElementKind (k d c : Term) : Prop where
  shape  : ∃ h n s, k = .kind h (some (.app n .functionalType [d, c] none)) (some d) (some c) s ∧
    h.cls.isElement
  source : d.TypeKind
  target : c.TypeKind

variable {c d k : Term}

theorem TypeKind.isType (h : k.TypeKind) : k.IsType := by
  have ⟨_, _, _, _, _, hk, hc⟩ := h
  subst hk
  exact ⟨by simp [role?, KindClass.role, hc], by simp⟩

theorem ElementKind.goes (h : k.ElementKind d c) : k.Goes d c := by
  have ⟨_, _, _, hk, hc⟩ := h.shape
  subst hk
  simp only [isElement, Bool.not_eq_true'] at hc
  exact ⟨by simp [role?, KindClass.role, hc], by simp, rfl, rfl, h.source.isType, h.target.isType⟩

theorem TypeKind.present (h : k.TypeKind) : k.present = some k := by
  have ⟨_, _, _, _, _, hk, _⟩ := h
  subst hk
  rfl

theorem typeKind_one : one.TypeKind :=
  ⟨_, _, _, _, _, rfl, rfl⟩

theorem role?_sort (c : KindClass) : c.sort.role? = some c.role := by
  cases c <;> rfl

theorem checkParts_type {c : KindClass} (h : c.isType) :
    checkParts "type" (some c.sort) none = .ok () := by
  simp [checkParts, role?_sort, KindClass.role, h]

theorem checkParts_element {c : KindClass} {n : Nat} {ts : List Term} (h : c.isElement) :
    checkParts "element" (some c.sort) (some (.app n .functionalType ts none)) = .ok () := by
  simp only [KindClass.isElement, Bool.not_eq_true'] at h
  simp [checkParts, role?_sort, KindClass.role, h, hasRole, role, role?, Op.role]

theorem make_type_eq (n : Nat) (spec : KindSpec) (hc : spec.cls.isType) (hs : spec.constr = none)
    (hn : spec.sortNumber = none) : make n spec = .ok (.kind
      (KindSpec.head n { spec with name := if spec.cls = .one then "1" else spec.name } spec.cls.sort)
      none none none none) := by
  have made (name : String) : makeType n { spec with name } =
      .ok (.kind ({ spec with name }.head n spec.cls.sort) none none none none) := by
    simp [makeType, hs, optionHasRole, KindSpec.sort, hn, checkParts_type hc]
  rw [make]
  split
  case h_1 h   => rw [if_pos h, made]
  case h_2 h   => simp [h, isType] at hc
  case h_3 h _ => rw [if_neg h, if_pos hc, made]

theorem make_type (n : Nat) (spec : KindSpec) (hc : spec.cls.isType) (hs : spec.constr = none)
    (hn : spec.sortNumber = none) : ∃ k, make n spec = .ok k ∧ k.TypeKind :=
  ⟨_, make_type_eq n spec hc hs hn, _, _, _, _, _, rfl, hc⟩

theorem make_element_eq (n : Nat) (spec : KindSpec) (hc : spec.cls.isElement)
    (hs : spec.constr = none) (hn : spec.sortNumber = none) (hd : spec.domain = some d)
    (hcd : spec.codomain = some c) (ht : d.TypeKind) (ht' : c.TypeKind)
    (ho : spec.cls = .constant → d = one) : make n spec = .ok (.kind (spec.head n spec.cls.sort)
      (some (.app (n + 1) .functionalType [d, c] none)) (some d) (some c) none) := by
  have made : makeElement n { spec with domain := some d } = .ok (.kind (spec.head n spec.cls.sort)
      (some (.app (n + 1) .functionalType [d, c] none)) (some d) (some c) none) := by
    simp [makeElement, hs, hcd, optionHasRole, hasRole_eq ht.isType.role,
      hasRole_eq ht'.isType.role, Op.form_functionalType ht.isType ht'.isType, KindSpec.sort, hn,
      checkParts_element hc, KindSpec.head]
  rw [make]
  split
  case h_1 h => simp [h, isElement, isType] at hc
  case h_2 h => rw [← made, ho h]
  case h_3 =>
    have hc' : spec.cls.isType = false := by simpa [isElement] using hc
    rw [if_neg (by simp [hc']), ← made, ← hd]

theorem make_element (n : Nat) (spec : KindSpec) (hc : spec.cls.isElement) (hs : spec.constr = none)
    (hn : spec.sortNumber = none) (hd : spec.domain = some d) (hcd : spec.codomain = some c)
    (ht : d.TypeKind) (ht' : c.TypeKind) (ho : spec.cls = .constant → d = one) :
    ∃ k, make n spec = .ok k ∧ k.ElementKind d c :=
  ⟨_, make_element_eq n spec hc hs hn hd hcd ht ht' ho, ⟨_, _, _, rfl, hc⟩, ht, ht'⟩

-- The kind is numbered `n`, and has the name and the class that the edge tells.
structure MadeOf (k : Term) (n : Nat) (e : Edge) : Prop where
  serial : k.serial? = some n
  name   : k.printed = e.name
  cls    : k.cls? = ofLabel? e.sort

end Term

namespace Graph

def NamesType (sort : String) : Prop :=
  ∃ c, ofLabel? sort = some c ∧ c.isType ∧ built c

def NamesElement (sort : String) (c : KindClass) : Prop :=
  ofLabel? sort = some c ∧ c.isElement ∧ built c

-- No name is used twice, kinds can be built of all nodes and edges, and constants go from the type
-- with a single member.
structure Sound (g : Graph) : Prop where
  distinct : (g.nodes.toList.map (·.name) ++ g.edges.toList.map (·.name)).Nodup
  types    : ∀ v ∈ g.nodes, NamesType v.sort
  elements : ∀ e ∈ g.edges, ∃ c, NamesElement e.sort c ∧ (c = .constant → e.domain.name = "1")
  source   : ∀ e ∈ g.edges, g.nameOf e.source = some e.domain.name ∧ NamesType e.domain.sort
  target   : ∀ e ∈ g.edges, g.nameOf e.target = some e.codomain.name ∧ NamesType e.codomain.sort

variable {g : Graph}

theorem Sound.edge_eq (h : g.Sound) {e e' : Edge} (he : e ∈ g.edges) (he' : e' ∈ g.edges)
    (hn : e.name = e'.name) : e = e' :=
  inj_on_of_nodup_map (nodup_append.mp h.distinct).2.1 (by simpa using he)
    (by simpa using he') hn

theorem Sound.name_ne (h : g.Sound) {v : Node} {e : Edge} (hv : v ∈ g.nodes) (he : e ∈ g.edges) :
    v.name ≠ e.name :=
  (nodup_append.mp h.distinct).2.2 _ (mem_map_of_mem (by simpa using hv)) _
    (mem_map_of_mem (by simpa using he))

theorem exists_node {i : Nat} {name : String} (h : g.nameOf i = some name) :
    ∃ v ∈ g.nodes, v.name = name := by
  have ⟨v, hv, hn⟩ := Option.map_eq_some_iff.mp h
  exact ⟨v, Array.mem_of_getElem? hv, hn⟩

end Graph

namespace Session

-- A later state of a session: more may be known.
structure Later (s s' : Session) : Prop where
  graph    : s'.graph = s.graph
  number   : s'.number = s.number
  defaults : s'.defaults = s.defaults
  known    : ∀ (name : String) (k : Term), s.known[name]? = some k → s'.known[name]? = some k

variable {s s' s'' : Session}

theorem Later.refl (s : Session) : s.Later s :=
  ⟨rfl, rfl, rfl, fun _ _ h => h⟩

theorem Later.trans (h : s.Later s') (h' : s'.Later s'') : s.Later s'' where
  graph    := h'.graph.trans h.graph
  number   := h'.number.trans h.number
  defaults := h'.defaults.trans h.defaults
  known    := fun name k hk => h'.known name k (h.known name k hk)

def numbered (s : Session) : Session :=
  { s with next := s.next + Op.serials }

theorem Later.numbered (s : Session) : s.Later s.numbered :=
  ⟨rfl, rfl, rfl, fun _ _ h => h⟩

def know (s : Session) (name : String) (k : Term) : Session :=
  { s with known := s.known.insert name k }

theorem known_know (s : Session) (name : String) (k : Term) :
    (s.know name k).known[name]? = some k := by
  simp [know]

theorem known_know_of_ne {name name' : String} (s : Session) (k : Term) (h : name' ≠ name) :
    (s.know name k).known[name']? = s.known[name']? := by
  simp [know, Std.HashMap.getElem?_insert, h.symm]

theorem Later.know {name : String} {k : Term} (h : s.known[name]? = none) :
    s.Later (s.know name k) where
  graph    := rfl
  number   := rfl
  defaults := rfl
  known    := fun name' k' hk => by
    have hne : name' ≠ name := by
      rintro rfl
      simp [h] at hk
    rw [known_know_of_ne s k hne, hk]

structure Sound (s : Session) : Prop where
  graph : s.graph.Sound
  one   : s.known["1"]? = some .one
  node  : ∀ v ∈ s.graph.nodes, ∀ k, s.known[v.name]? = some k → k.TypeKind
  edge  : ∀ e ∈ s.graph.edges, ∀ k, s.known[e.name]? = some k → ∃ d c,
    s.known[e.domain.name]? = some d ∧ s.known[e.codomain.name]? = some c ∧ k.ElementKind d c

-- A property that a session keeps when the kind of a node or of an edge becomes known.
structure Kept (I : Session → Prop) : Prop where
  sound    : ∀ {s}, I s → s.Sound
  numbered : ∀ {s}, I s → I s.numbered
  node     : ∀ {s v k}, I s → v ∈ s.graph.nodes → k.TypeKind → k.serial? = some s.next →
    s.known[v.name]? = none → I (s.numbered.know v.name k)
  edge     : ∀ {s e d c k}, I s → e ∈ s.graph.edges → s.known[e.domain.name]? = some d →
    s.known[e.codomain.name]? = some c → k.ElementKind d c → k.MadeOf s.next e →
      s.known[e.name]? = none → I (s.numbered.know e.name k)

-- The kind `k` has been recalled under a name.
structure Recalled (I : Session → Prop) (s s' : Session) (name : String) (k : Term) : Prop where
  later : s.Later s'
  kept  : I s'
  known : s'.known[name]? = some k

end Session

namespace SessionM

open Session

variable {s s' : Session} {I : Session → Prop} {k : Term}

theorem gives_serials {f : Nat → Except Failure Term} {t : Term} :
    (do ofExcept (f (← serials Op.serials))).Gives s t s' ↔
      f s.next = .ok t ∧ s' = s.numbered := by
  simp only [gives_bind, serials, gives_modifyGet, gives_ofExcept]
  constructor
  · rintro ⟨_, _, ⟨rfl, rfl⟩, h, rfl⟩
    exact ⟨h, rfl⟩
  · rintro ⟨h, rfl⟩
    exact ⟨_, _, rfl, h, rfl⟩

theorem gives_make_iff {spec : KindSpec} :
    (make spec).Gives s k s' ↔ Term.make s.next spec = .ok k ∧ s' = s.numbered :=
  gives_serials

theorem gives_app_iff {op : Op} {args : List Term} {t : Term} :
    (app op args).Gives s t s' ↔ apply s.next op args = .ok t ∧ s' = s.numbered :=
  gives_serials

theorem gives_make {spec : KindSpec} (h : Term.make s.next spec = .ok k) :
    (make spec).Gives s k s.numbered :=
  gives_make_iff.mpr ⟨h, rfl⟩

theorem gives_know (name : String) (k : Term) (s : Session) :
    (know name k).Gives s () (s.know name k) :=
  gives_modify.mpr rfl

theorem restore_of_known {name : String} {sort altname article code : Option String}
    {d c : Except Failure Record} (h : s.known[name]? = some k) :
    (restore (.mk (some name) sort altname article code d c)).Gives s k s := by
  simp only [restore]
  refine gives_get_bind.mpr ?_
  simp [h]

def typeRecord (name sort : String) (altname : Option String) : Record :=
  .mk (some name) (some sort) altname none none (.error .noKey) (.error .noKey)

def typeSpec (name : String) (c : KindClass) (altname : Option String) : KindSpec :=
  { cls := c, name, altname := if c == .objectType then altname else none }

def edgeSpec (e : Edge) (c : KindClass) (d d' : Term) : KindSpec :=
  { cls := c, name := e.name, domain := present d, codomain := present d',
    article := if c == .variable then e.article else none,
    code := if c == .constant then e.code else none }

theorem gives_known (name : String) (k : Term) (s : Session) :
    (do know name k; return k : SessionM Term).Gives s k (s.know name k) :=
  Gives.bind (gives_know ..) gives_done

section Unknown

variable {name sort : String} {altname : Option String} {c : KindClass} {k : Term}

theorem restore_made (h : s.known[name]? = none) (hc : ofLabel? sort = some c)
    (ht : c.isType) (hb : built c) (hk : Term.make s.next (typeSpec name c altname) = .ok k) :
    (restore (typeRecord name sort altname)).Gives s k (s.numbered.know name k) := by
  rw [typeRecord, restore]
  refine gives_get_bind.mpr ?_
  simp only [h, hc, ht, hb, if_true]
  exact Gives.bind (gives_make hk) (gives_known ..)

theorem restore_unmade (altname : Option String) (h : s.known[name]? = none)
    (ht : ∀ c, ofLabel? sort = some c → c.isType) (hn : ¬Graph.NamesType sort) :
    (restore (typeRecord name sort altname)).Gives s .nothing (s.know name .nothing) := by
  rw [typeRecord, restore]
  refine gives_get_bind.mpr ?_
  cases hc : ofLabel? sort
  case none   => simpa [h] using gives_known ..
  case some c =>
    have hb : built c = false := by
      by_contra hb
      exact hn ⟨c, hc, ht c hc, by simpa using hb⟩
    simpa [h, ht c hc, hb] using gives_known ..

theorem restore_of_unknown (altname : Option String) (h : s.known[name]? = none)
    (hs : Graph.NamesType sort) : ∃ k, k.TypeKind ∧ k.serial? = some s.next ∧
      (restore (typeRecord name sort altname)).Gives s k (s.numbered.know name k) := by
  obtain ⟨c, hc, ht, hb⟩ := hs
  exact ⟨_, ⟨_, _, _, _, _, rfl, ht⟩, rfl,
    restore_made h hc ht hb (Term.make_type_eq s.next _ ht rfl rfl)⟩

variable {e : Edge} {d d' : Term} {s₁ s₂ : Session}

theorem restore_made_edge (h : s.known[e.name]? = none) (hc : Graph.NamesElement e.sort c)
    (hd : (restore (.ofEnd e.domain)).Gives s d s₁)
    (hd' : (restore (.ofEnd e.codomain)).Gives s₁ d' s₂)
    (hk : Term.make s₂.next (edgeSpec e c d d') = .ok k) :
    (restore (.ofEdge e)).Gives s k (s₂.numbered.know e.name k) := by
  obtain ⟨hc, ht, hb⟩ := hc
  have ht : c.isType = false := by simpa [isElement] using ht
  rw [Record.ofEdge, restore]
  refine gives_get_bind.mpr ?_
  simp only [h, hc, ht, hb, Bool.false_eq_true, if_false, if_true, restore.recallEnd]
  exact Gives.bind hd (Gives.bind hd' (Gives.bind (gives_make hk) (gives_known ..)))

-- If it cannot be made, its ends may have been recalled or not.
theorem restore_unmade_edge (h : s.known[e.name]? = none)
    (ht : ∀ c, ofLabel? e.sort = some c → c.isElement)
    (hn : ¬∃ c, Graph.NamesElement e.sort c) (hd : (restore (.ofEnd e.domain)).Gives s d s₁)
    (hd' : (restore (.ofEnd e.codomain)).Gives s₁ d' s₂) : ∃ s', (s' = s ∨ s' = s₂) ∧
      (restore (.ofEdge e)).Gives s .nothing (s'.know e.name .nothing) := by
  rw [Record.ofEdge, restore]
  cases hc : ofLabel? e.sort
  case none =>
    refine ⟨s, .inl rfl, gives_get_bind.mpr ?_⟩
    simpa [h] using gives_known ..
  case some c =>
    have ht' : c.isType = false := by simpa [isElement] using ht c hc
    have hb : built c = false := by
      by_contra hb
      exact hn ⟨c, hc, ht c hc, by simpa using hb⟩
    refine ⟨s₂, .inr rfl, gives_get_bind.mpr ?_⟩
    simp only [h, ht', hb, Bool.false_eq_true, if_false, restore.recallEnd]
    exact Gives.bind hd (Gives.bind hd' (gives_known ..))

end Unknown

section Kept

variable (hI : Kept I)
include hI

theorem restore_node {name sort : String} {i : Nat} (altname : Option String) (hs : I s)
    (hn : s.graph.nameOf i = some name) (ht : Graph.NamesType sort) :
    ∃ k s', (restore (typeRecord name sort altname)).Gives s k s' ∧ s.Recalled I s' name k ∧
      k.TypeKind ∧ ∀ name' ≠ name, s'.known[name']? = s.known[name']? := by
  have ⟨v, hv, hn⟩ := Graph.exists_node hn
  subst hn
  cases h : s.known[v.name]?
  case some k =>
    exact ⟨k, s, restore_of_known h, ⟨.refl s, hs, h⟩, (hI.sound hs).node v hv k h, fun _ _ => rfl⟩
  case none =>
    have ⟨k, hk, hn, hr⟩ := restore_of_unknown altname h ht
    refine ⟨k, _, hr, ⟨(Later.numbered s).trans (.know h), ?_, known_know ..⟩, hk, ?_⟩
    · exact hI.node hs hv hk hn h
    · exact fun name hne => known_know_of_ne s.numbered k hne

theorem restore_edge {e : Edge} (hs : I s) (he : e ∈ s.graph.edges) :
    ∃ k s', (restore (.ofEdge e)).Gives s k s' ∧ s.Recalled I s' e.name k := by
  cases h : s.known[e.name]?
  case some k => exact ⟨k, s, restore_of_known h, .refl s, hs, h⟩
  case none =>
    have hg := (hI.sound hs).graph
    have ⟨c, ⟨hc, ht, hb⟩, ho⟩ := hg.elements e he
    have ⟨hvn, hvt⟩ := hg.source e he
    have ⟨d, s₁, hd, hr₁, hdt, hk₁⟩ := restore_node hI none hs hvn hvt
    have ⟨hwn, hwt⟩ := hr₁.later.graph ▸ hg.target e he
    have ⟨d', s₂, hd', hr₂, hdt', hk₂⟩ := restore_node hI none hr₁.kept hwn hwt
    have hl := hr₁.later.trans hr₂.later
    -- The ends are known by now, and the edge is not.
    have hdk : s₂.known[e.domain.name]? = some d := hr₂.later.known _ _ hr₁.known
    have hne : s₂.known[e.name]? = none := by
      have ⟨v, hv, hvn⟩ := Graph.exists_node hvn
      have ⟨w, hw, hwn⟩ := Graph.exists_node hwn
      rw [hk₂ e.name (hwn ▸ (hg.name_ne (hr₁.later.graph ▸ hw) he).symm),
        hk₁ e.name (hvn ▸ (hg.name_ne hv he).symm), h]
    have hone : c = .constant → d = .one := fun hc => by
      have := (hI.sound hr₂.kept).one
      rw [ho hc, this] at hdk
      exact (Option.some.inj hdk).symm
    obtain ⟨k, hk, hke, hkm⟩ : ∃ k, Term.make s₂.next (edgeSpec e c d d') = .ok k ∧
        k.ElementKind d d' ∧ k.MadeOf s₂.next e :=
      ⟨_, Term.make_element_eq s₂.next _ ht rfl rfl hdt.present hdt'.present hdt hdt' hone,
        ⟨⟨_, _, _, rfl, ht⟩, hdt, hdt'⟩, rfl, rfl, hc.symm⟩
    have hl' := Later.numbered s₂
    exact ⟨k, s₂.numbered.know e.name k, restore_made_edge h ⟨hc, ht, hb⟩ hd hd' hk,
      hl.trans (hl'.trans (.know hne)),
      hI.edge hr₂.kept (hl.graph ▸ he) hdk hr₂.known hke hkm hne, known_know ..⟩

theorem restore_edge_ends {e : Edge} {origin : String} (hs : I s) (he : e ∈ s.graph.edges)
    (ho : s.graph.nameOf e.source = some origin) :
    ∃ k s' d c, (restore (.ofEdge e)).Gives s k s' ∧ s.Later s' ∧ I s' ∧
      s'.known[origin]? = some d ∧ s'.known[e.codomain.name]? = some c ∧ k.ElementKind d c := by
  have ⟨k, s', hk, hr⟩ := restore_edge hI hs he
  have ⟨d, c, hd, hc, hkd⟩ := (hI.sound hr.kept).edge e (hr.later.graph ▸ he) k hr.known
  have ⟨hn, _⟩ := (hI.sound hs).graph.source e he
  exact ⟨k, s', d, c, hk, hr.later, hr.kept, Option.some.inj (hn.symm.trans ho) ▸ hd, hc, hkd⟩

-- The kinds along a trail, the last one first, lead from the type where it begins to the type where
-- it ends.
theorem restore_trail {g : Graph} {v : Nat} {origin dest : String} {es : List Edge}
    (h : g.Trail dest v es) (hs : I s) (hg : s.graph = g) (ho : g.nameOf v = some origin) :
    ∃ ks s' d c, (es.mapM fun e => restore (.ofEdge e)).Gives s ks s' ∧ s.Later s' ∧ I s' ∧
      s'.known[origin]? = some d ∧ s'.known[dest]? = some c ∧
      Term.Leads ks.reverse d c ∧ ∀ k ∈ ks, ∃ d c, k.ElementKind d c := by
  induction h generalizing s origin
  case single e he hd =>
    subst hg
    have ⟨k, s', d, c, hk, hl, hc, hkd, hkc, hke⟩ := restore_edge_ends hI hs he ho
    rw [((hI.sound hs).graph.target e he).left] at hd
    refine ⟨[k], s', d, c, ?_, hl, hc, hkd, Option.some.inj hd ▸ hkc, .single hke.goes, ?_⟩
    · simp only [mapM_cons, mapM_nil]
      exact Gives.bind hk (by simp)
    · simpa using ⟨d, c, hke⟩
  case cons e es he h ih =>
    subst hg
    have ⟨k, s₁, d, c, hk, hl, hc, hkd, hkc, hke⟩ := restore_edge_ends hI hs he ho
    have ⟨ks, s₂, d', c', hks, hl', hc', hkd', hkc', hle, hel⟩ :=
      ih hc hl.graph ((hI.sound hs).graph.target e he).left
    -- The next edge begins where this one ends.
    have hdc : d' = c := Option.some.inj (hkd'.symm.trans (hl'.known _ _ hkc))
    subst hdc
    refine ⟨k :: ks, s₂, d, c', ?_, hl.trans hl', hc', hl'.known _ _ hkd, hkc', ?_, ?_⟩
    · simp only [mapM_cons]
      exact Gives.bind hk (Gives.bind hks gives_done)
    · simpa using hle.snoc hke.goes hke.target.isType.whole
    · simpa using ⟨⟨d, d', hke⟩, hel⟩

theorem restore_trails (origin dest : String) {ess : List (List Edge)} (hs : I s)
    (h : ∀ es ∈ ess, ∃ v, s.graph.nameOf v = some origin ∧ s.graph.Trail dest v es) :
    ∃ ps s', Gives (ess.mapM fun trail => do
        let kinds ← trail.mapM fun e => restore (.ofEdge e)
        return kinds.reverse) s ps s' ∧ s.Later s' ∧ I s' ∧ ps.length = ess.length ∧
      ∀ p ∈ ps, ∃ o t, s'.known[origin]? = some o ∧ s'.known[dest]? = some t ∧ Term.Leads p o t ∧
        ∀ k ∈ p, ∃ d c, k.ElementKind d c := by
  induction ess generalizing s
  case nil => exact ⟨[], s, by simp, .refl s, hs, rfl, by simp⟩
  case cons es ess ih =>
    have ⟨⟨v, hv, htr⟩, h⟩ := forall_mem_cons.mp h
    have ⟨ks, s₁, d, c, hks, hl, hc, hkd, hkc, hle, hel⟩ := restore_trail hI htr hs rfl hv
    have ⟨ps, s₂, hps, hl', hc', hlen, hall⟩ := ih hc (hl.graph ▸ h)
    refine ⟨ks.reverse :: ps, s₂, ?_, hl.trans hl', hc', by simp [hlen], ?_⟩
    · simp only [mapM_cons]
      exact Gives.bind (Gives.bind hks gives_done)
        (Gives.bind hps gives_done)
    · refine forall_mem_cons.mpr ⟨⟨d, c, ?_⟩, hall⟩
      exact ⟨hl'.known _ _ hkd, hl'.known _ _ hkc, hle, by simpa using hel⟩

theorem pathsNamed_recalls (origin dest : String) (hs : I s) :
    ∃ ps s', (pathsNamed origin dest).Gives s ps s' ∧ s.Later s' ∧ I s' ∧
      ps.length = (s.graph.trails origin dest).length ∧
      ∀ p ∈ ps, ∃ o t, s'.known[origin]? = some o ∧ s'.known[dest]? = some t ∧ Term.Leads p o t ∧
        ∀ k ∈ p, ∃ d c, k.ElementKind d c := by
  have ⟨ps, s', h, hr⟩ := restore_trails hI origin dest hs fun _ => Graph.trail_of_mem_trails
  exact ⟨ps, s', gives_get_bind.mpr h, hr⟩

theorem nodeKind_recalls (name : String) (hs : I s) : ∃ k s', (nodeKind name).Gives s k s' ∧
    (s.Recalled I s' name k ∨ k = .nothing ∧ s' = s ∧ s.graph.node? name = none) := by
  rw [nodeKind]
  cases hv : s.graph.node? name
  case none =>
    refine ⟨.nothing, s, gives_get_bind.mpr (by simp [hv]), .inr ⟨rfl, rfl, rfl⟩⟩
  case some v =>
    obtain rfl : v.name = name := by simpa using Array.find?_some hv
    have hm : v ∈ s.graph.nodes := Array.mem_of_find?_eq_some hv
    obtain ⟨i, hi⟩ := Array.getElem?_of_mem hm
    have hn : s.graph.nameOf i = some v.name := by simp [Graph.nameOf, hi]
    obtain ⟨k, s', hk, hr, _⟩ := restore_node hI v.altname hs hn ((hI.sound hs).graph.types v hm)
    refine ⟨k, s', gives_get_bind.mpr ?_, .inl hr⟩
    simp only [hv]
    exact hk

theorem edgeKind_recalls (name : String) (hs : I s) : ∃ k s', (edgeKind name).Gives s k s' ∧
    (s.Recalled I s' name k ∨ k = .nothing ∧ s' = s ∧ s.graph.edge? name = none) := by
  rw [edgeKind]
  cases he : s.graph.edge? name
  case none =>
    refine ⟨.nothing, s, gives_get_bind.mpr (by simp [he]), .inr ⟨rfl, rfl, rfl⟩⟩
  case some e =>
    obtain rfl : e.name = name := by simpa using Array.find?_some he
    obtain ⟨k, s', hk, hr⟩ := restore_edge hI hs (Array.mem_of_find?_eq_some he)
    exact ⟨k, s', gives_get_bind.mpr (by simpa [he] using hk), .inl hr⟩

theorem kindNamed_recalls (name : String) (hs : I s) : ∃ k s', (kindNamed name).Gives s k s' ∧
    (s.Recalled I s' name k ∨
      k = .nothing ∧ s' = s ∧ s.graph.node? name = none ∧ s.graph.edge? name = none) := by
  rw [kindNamed]
  cases h : s.known[name]?
  case some k =>
    refine ⟨k, s, gives_get_bind.mpr (by simp [h]), .inl ⟨.refl s, hs, h⟩⟩
  case none =>
    cases hv : s.graph.node? name
    case some v =>
      obtain ⟨k, s', hk, hr⟩ := nodeKind_recalls hI name hs
      refine ⟨k, s', gives_get_bind.mpr ?_, .inl ?_⟩
      · simp only [h]
        exact gives_get_bind.mpr (by simpa [hv] using hk)
      · exact hr.resolve_right fun hn => by simp [hv] at hn
    case none =>
      obtain ⟨k, s', hk, hr⟩ := edgeKind_recalls hI name hs
      refine ⟨k, s', gives_get_bind.mpr ?_, hr.imp_right ?_⟩
      · simp only [h]
        exact gives_get_bind.mpr (by simpa [hv] using hk)
      · rintro ⟨rfl, rfl, he⟩
        exact ⟨rfl, rfl, rfl, he⟩

theorem kindOfSort_recalls {name sort : String} {c : KindClass}
    (hc : ofLabel? sort = some c) (hs : I s) :
    ∃ k s', (kindOfSort name sort).Gives s k s' ∧ (s.Recalled I s' name k ∨
      k = .nothing ∧ s' = s ∧ s.known[name]? = none ∧
        if c.isType then s.graph.node? name = none else s.graph.edge? name = none) := by
  rw [kindOfSort]
  cases h : s.known[name]?
  case some k =>
    refine ⟨k, s, gives_get_bind.mpr (by simp [h]), .inl ⟨.refl s, hs, h⟩⟩
  case none =>
    cases ht : c.isType
    case true =>
      obtain ⟨k, s', hk, hr⟩ := nodeKind_recalls hI name hs
      refine ⟨k, s', gives_get_bind.mpr (by simpa [h, hc, ht] using hk), ?_⟩
      simpa using hr
    case false =>
      obtain ⟨k, s', hk, hr⟩ := edgeKind_recalls hI name hs
      refine ⟨k, s', gives_get_bind.mpr (by simpa [h, hc, ht] using hk), ?_⟩
      simpa using hr

theorem kindOfSort_variable (title : String) (hs : I s) :
    ∃ k s', (kindOfSort title "Variable").Gives s k s' ∧ (s.Recalled I s' title k ∨
      k = .nothing ∧ s' = s ∧ s.known[title]? = none ∧ s.graph.edge? title = none) :=
  kindOfSort_recalls hI (c := .variable) rfl hs

end Kept

end SessionM
end Inquiry
