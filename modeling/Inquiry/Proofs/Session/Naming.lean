import Mathlib
import Inquiry.Proofs.Kind.Making
import Inquiry.Proofs.Session.Opening
import Inquiry.Proofs.Session.Recall
import Inquiry.Request.Building

/-!
What is known under the names of a session. A kind that is known stays known under its name,
whatever is asked for and whether or not it succeeds, and the ends of a known kind are known
themselves.
-/

namespace Inquiry

open List Term KindClass

theorem KindClass.label_of_ofLabel? {sort : String} {c : KindClass} (h : ofLabel? sort = some c) :
    c.label = sort := by
  simpa using find?_some h

namespace Term

variable {n : Nat} {spec : KindSpec} {k : Term}

theorem make_type_shape (n : Nat) (spec : KindSpec) (hc : spec.cls.isType) (hs : spec.constr = none)
    (hn : spec.sortNumber = none) : ∃ h, make n spec = .ok (.kind h none none none none) ∧
      h.cls = spec.cls ∧ h.id = spec.id?.elim (.fresh n) .given ∧
      h.name = if h.cls = .one then "1" else spec.name :=
  ⟨_, make_type_eq n spec hc hs hn, rfl, rfl, rfl⟩

theorem makeElement_shape (h : makeElement n spec = .ok k) (hs : spec.constr = none) :
    ∃ sort ty, k = .kind (spec.head n sort) ty spec.domain spec.codomain none := by
  obtain ⟨sort, ty, _, _, rfl, _, he⟩ := makeElement_eq_ok h
  obtain ⟨rfl, rfl⟩ := he hs
  exact ⟨sort, ty, by rw [hs]⟩

theorem make_element_shape (h : make n spec = .ok k) (hc : spec.cls.isElement)
    (hs : spec.constr = none) : ∃ sort ty d, k = .kind (spec.head n sort) ty d spec.codomain none ∧
      (d = spec.domain ∨ d = some one) := by
  rw [make] at h
  split at h
  case h_1 h' => simp [h', isElement, isType] at hc
  case h_2 =>
    obtain ⟨sort, ty, rfl⟩ := makeElement_shape h hs
    exact ⟨sort, ty, _, rfl, .inr rfl⟩
  case h_3 =>
    have hc' : spec.cls.isType = false := by simpa [isElement] using hc
    obtain ⟨sort, ty, rfl⟩ := makeElement_shape (by simpa [hc'] using h) hs
    exact ⟨sort, ty, _, rfl, .inl rfl⟩

theorem present_eq_some {t u : Term} : t.present = some u ↔ t = u ∧ u ≠ nothing := by
  cases t <;> simp [present] <;> rintro rfl <;> simp

end Term

namespace Session

variable {s s' s'' : Session}

-- A later state of a session: what is known stays known, and only kinds of the graph are new.
structure Recalls (s s' : Session) : Prop where
  number      : s'.number = s.number
  objectTypes : s'.objectTypes = s.objectTypes
  known       : ∀ (name : String) (k : Term), s.known[name]? = some k → s'.known[name]? = some k
  new         : ∀ name : String, s.graph.node? name = none → s.graph.edge? name = none →
    s'.known[name]? = s.known[name]?
  graph       : s'.graph = s.graph

-- A later state of a session: the kinds that are known stay known.
structure Grows (s s' : Session) : Prop where
  number      : s'.number = s.number
  objectTypes : s'.objectTypes = s.objectTypes
  known       : ∀ (name : String) (k : Term), k ≠ .nothing → s.known[name]? = some k →
    s'.known[name]? = some k

theorem Recalls.refl (s : Session) : s.Recalls s :=
  ⟨rfl, rfl, fun _ _ h => h, fun _ _ _ => rfl, rfl⟩

theorem Recalls.trans (h : s.Recalls s') (h' : s'.Recalls s'') : s.Recalls s'' where
  number      := h'.number.trans h.number
  objectTypes := h'.objectTypes.trans h.objectTypes
  known name k hk := h'.known name k (h.known name k hk)
  new name hn he  := (h'.new name (h.graph ▸ hn) (h.graph ▸ he)).trans (h.new name hn he)
  graph       := h'.graph.trans h.graph

theorem Recalls.grows (h : s.Recalls s') : s.Grows s' :=
  ⟨h.number, h.objectTypes, fun name k _ hk => h.known name k hk⟩

theorem Grows.refl (s : Session) : s.Grows s :=
  ⟨rfl, rfl, fun _ _ _ h => h⟩

theorem Grows.trans (h : s.Grows s') (h' : s'.Grows s'') : s.Grows s'' where
  number      := h'.number.trans h.number
  objectTypes := h'.objectTypes.trans h.objectTypes
  known name k hn hk := h'.known name k hn (h.known name k hn hk)

theorem Met.grows {k : Term} (h : s.Met k) (hn : k ≠ .nothing) (hg : s.Grows s') : s'.Met k :=
  have ⟨name, hk⟩ := h
  ⟨name, hg.known name k hn hk⟩

end Session

-- Names that are given to kinds of a class; those of the graph are among them.
structure Graph.Gives (g : Graph) (P : String → KindClass → Prop) : Prop where
  node : ∀ v ∈ g.nodes, ∀ c, ofLabel? v.sort = some c → P v.name c
  edge : ∀ e ∈ g.edges, ∀ c, ofLabel? e.sort = some c → P e.name c

-- No name is used twice, nodes are for types and edges for elements, and an edge tells the names
-- and the sorts of its ends.
structure Graph.Distinct (g : Graph) : Prop where
  distinct : (g.nodes.toList.map (·.name) ++ g.edges.toList.map (·.name)).Nodup
  types    : ∀ v ∈ g.nodes, ∀ c, ofLabel? v.sort = some c → c.isType
  elements : ∀ e ∈ g.edges, ∀ c, ofLabel? e.sort = some c → c.isElement
  source   : ∀ e ∈ g.edges, ∃ v ∈ g.nodes, v.name = e.domain.name ∧ v.sort = e.domain.sort
  target   : ∀ e ∈ g.edges, ∃ v ∈ g.nodes, v.name = e.codomain.name ∧ v.sort = e.codomain.sort

namespace Graph

variable {g : Graph} {v : Node} {e : Edge}

def Builds (g : Graph) (name : String) : Prop :=
  (∃ v ∈ g.nodes, v.name = name ∧ NamesType v.sort) ∨
    ∃ e ∈ g.edges, e.name = name ∧ ∃ c, NamesElement e.sort c

theorem node?_ne_none (hv : v ∈ g.nodes) : g.node? v.name ≠ none := by
  intro h
  simpa using Array.find?_eq_none.mp h v hv

theorem edge?_ne_none (he : e ∈ g.edges) : g.edge? e.name ≠ none := by
  intro h
  simpa using Array.find?_eq_none.mp h e he

theorem Distinct.name_ne (h : g.Distinct) (hv : v ∈ g.nodes) (he : e ∈ g.edges) : v.name ≠ e.name :=
  (nodup_append.mp h.distinct).2.2 _ (mem_map_of_mem (by simpa using hv)) _
    (mem_map_of_mem (by simpa using he))

theorem Distinct.node_eq (h : g.Distinct) {w : Node} (hv : v ∈ g.nodes) (hw : w ∈ g.nodes)
    (hn : v.name = w.name) : v = w :=
  inj_on_of_nodup_map (nodup_append.mp h.distinct).1 (by simpa using hv)
    (by simpa using hw) hn

theorem Distinct.edge_eq (h : g.Distinct) {e' : Edge} (he : e ∈ g.edges) (he' : e' ∈ g.edges)
    (hn : e.name = e'.name) : e = e' :=
  inj_on_of_nodup_map (nodup_append.mp h.distinct).2.1 (by simpa using he)
    (by simpa using he') hn

theorem Distinct.builds_node (h : g.Distinct) (hv : v ∈ g.nodes) (hb : g.Builds v.name) :
    NamesType v.sort := by
  obtain ⟨w, hw, hn, hs⟩ | ⟨e, he, hn, _⟩ := hb
  · exact h.node_eq hv hw hn.symm ▸ hs
  · exact absurd hn.symm (h.name_ne hv he)

theorem Distinct.builds_edge (h : g.Distinct) (he : e ∈ g.edges) (hb : g.Builds e.name) :
    ∃ c, NamesElement e.sort c := by
  obtain ⟨v, hv, hn, _⟩ | ⟨e', he', hn, hs⟩ := hb
  · exact absurd hn (h.name_ne hv he)
  · exact h.edge_eq he he' hn.symm ▸ hs

end Graph

namespace Session

variable {g : Graph} {P : String → KindClass → Prop} {s s' : Session} {name : String} {k : Term}

-- What may be known under a name. Only types with a single member go by another name, and only one
-- of these was not made in the session.
inductive KnownAs (P : String → KindClass → Prop) (s : Session) (name : String) : Term → Prop
  | kind {h ty d c} : (h.name = if h.cls = .one then "1" else name) → P name h.cls →
    (name ≠ "1" → ∃ n, h.id = .fresh n) → (∀ e ∈ d.toList ++ c.toList, e ≠ .nothing ∧ s.Met e) →
      KnownAs P s name (.kind h ty d c none)

structure Named (g : Graph) (P : String → KindClass → Prop) (s : Session) : Prop where
  graph  : s.graph = g
  one    : s.known["1"]? = some .one
  getal  : s.known["getal"]? = some s.number
  number : ∃ h, s.number = .kind h none none none none ∧ h.cls = .quantity
  known  : ∀ (name : String) (k : Term), s.known[name]? = some k → k ≠ .nothing → s.KnownAs P name k
  built  : ∀ name, g.Builds name → s.known[name]? ≠ some .nothing

theorem KnownAs.ne_nothing (h : s.KnownAs P name k) : k ≠ .nothing := by
  cases h
  simp

theorem KnownAs.grows (h : s.KnownAs P name k) (hg : s.Grows s') : s'.KnownAs P name k := by
  cases h
  case kind hn hp hi hm =>
    exact .kind hn hp hi fun e he => ⟨(hm e he).left, (hm e he).right.grows (hm e he).left hg⟩

theorem Named.of_eq (h : Named g P s) (hg : s'.graph = s.graph) (hn : s'.number = s.number)
    (hk : s'.known = s.known) : Named g P s' where
  graph  := hg.trans h.graph
  one    := hk ▸ h.one
  getal  := hk ▸ hn ▸ h.getal
  number := hn ▸ h.number
  known name k hkn hne := by
    cases h.known name k (hk ▸ hkn) hne
    case kind hn hp hi hm =>
      exact .kind hn hp hi fun e he => ⟨(hm e he).left, by simpa [Met, hk] using (hm e he).right⟩
  built  := hk ▸ h.built

theorem Named.imp {P' : String → KindClass → Prop} (h : Named g P s)
    (hp : ∀ name c, P name c → P' name c) : Named g P' s where
  graph  := h.graph
  one    := h.one
  getal  := h.getal
  number := h.number
  known name k hk hne := by
    cases h.known name k hk hne
    case kind hn hp' hi hm => exact .kind hn (hp _ _ hp') hi hm
  built  := h.built

-- A name under which nothing was known until now.
def Unknown (s : Session) (name : String) : Prop :=
  s.known[name]? = none ∨ s.known[name]? = some .nothing

theorem Grows.know (h : s.Unknown name) : s.Grows (s.know name k) where
  number      := rfl
  objectTypes := rfl
  known name' k' hn hk := by
    have hne : name' ≠ name := by
      rintro rfl
      cases h <;> simp_all
    rw [known_know_of_ne s k hne, hk]

theorem Named.know (h : Named g P s) (hu : s.Unknown name) (hk : k ≠ .nothing → s.KnownAs P name k)
    (hb : g.Builds name → k ≠ .nothing) : Named g P (s.know name k) where
  graph  := h.graph
  one    := (Grows.know hu).known _ _ (by simp [Term.one]) h.one
  getal  := by
    have ⟨_, hn, _⟩ := h.number
    have hne : s.number ≠ .nothing := by simp [hn]
    exact (Grows.know hu).known _ _ hne h.getal
  number := h.number
  known name' k' hk' hn := by
    refine KnownAs.grows ?_ (Grows.know hu)
    by_cases hne : name' = name
    case pos =>
      subst hne
      obtain rfl : k = k' := by simpa [known_know] using hk'
      exact hk hn
    case neg =>
      rw [known_know_of_ne s k hne] at hk'
      exact h.known name' k' hk' hn
  built name' hb' := by
    by_cases hne : name' = name
    case pos =>
      subst hne
      rw [known_know]
      exact fun hk => hb hb' (Option.some.inj hk)
    case neg =>
      rw [known_know_of_ne s k hne]
      exact h.built name' hb'

end Session

namespace SessionM

open Session

instance : Std.Refl Recalls := ⟨Recalls.refl⟩
instance : IsTrans Session Recalls := ⟨fun _ _ _ => Recalls.trans⟩
instance : Std.Refl Grows := ⟨Grows.refl⟩
instance : IsTrans Session Grows := ⟨fun _ _ _ => Grows.trans⟩

section Actions

variable {g : Graph} {P : String → KindClass → Prop} {s s' : Session} {spec : KindSpec} {k : Term}

theorem recalls_numbered (s : Session) : s.Recalls s.numbered :=
  ⟨rfl, rfl, fun _ _ h => h, fun _ _ _ => rfl, rfl⟩

theorem named_numbered (h : Named g P s) : Named g P s.numbered :=
  h.of_eq rfl rfl rfl

theorem recalls_know {name : String} (h : s.known[name]? = none)
    (hn : s.graph.node? name ≠ none ∨ s.graph.edge? name ≠ none) : s.Recalls (s.know name k) where
  number      := rfl
  objectTypes := rfl
  known       := (Later.know h).known
  new name' hv he := by
    refine known_know_of_ne s k ?_
    rintro rfl
    cases hn <;> contradiction
  graph       := rfl

variable (hg : g.Distinct) (hP : g.Gives P)
include hg hP

theorem restore_named {v : Node} (alt : Option String) (hv : v ∈ g.nodes) (hs : Named g P s) :
    ∃ k s', (restore (typeRecord v.name v.sort alt)).Gives s k s' ∧ Named g P s' ∧ s.Recalls s' ∧
      s'.known[v.name]? = some k ∧ ∀ name ≠ v.name, s'.known[name]? = s.known[name]? := by
  cases h : s.known[v.name]?
  case some k => exact ⟨k, s, restore_of_known h, hs, .refl s, h, fun _ _ => rfl⟩
  case none =>
    have known {k : Term} {s₁ : Session} (hk : s₁.known = s.known) (hs₁ : Named g P s₁)
        (hr : s.Recalls s₁) (hka : k ≠ .nothing → s₁.KnownAs P v.name k)
        (hb : Graph.NamesType v.sort → k ≠ .nothing) : Named g P (s₁.know v.name k) ∧
          s.Recalls (s₁.know v.name k) ∧ (s₁.know v.name k).known[v.name]? = some k ∧
          ∀ name ≠ v.name, (s₁.know v.name k).known[name]? = s.known[name]? := by
      have hu : s₁.known[v.name]? = none := hk ▸ h
      have hv' : s₁.graph.node? v.name ≠ none := hs₁.graph ▸ Graph.node?_ne_none hv
      refine ⟨hs₁.know (.inl hu) hka fun hb' => hb (hg.builds_node hv hb'),
        hr.trans (recalls_know hu (.inl hv')), known_know .., fun name hne => ?_⟩
      rw [known_know_of_ne s₁ k hne, hk]
    by_cases hb : Graph.NamesType v.sort
    case neg =>
      exact ⟨.nothing, _, restore_unmade alt h (hg.types v hv) hb,
        known rfl hs (.refl s) (by simp) fun hb' => absurd hb' hb⟩
    case pos =>
      obtain ⟨c, hl, ht, hb⟩ := hb
      obtain ⟨hd, hm, hc, hi, hn⟩ := make_type_shape s.next (typeSpec v.name c alt) ht rfl rfl
      exact ⟨_, _, restore_made h hl ht hb hm,
        known rfl (named_numbered hs) (recalls_numbered s)
          (fun _ => .kind hn (hc ▸ hP.node v hv c hl) (fun _ => ⟨s.next, hi⟩) (by simp)) (by simp)⟩

theorem passes_restore_node {v : Node} (alt : Option String) (hv : v ∈ g.nodes) (hs : Named g P s) :
    (restore (typeRecord v.name v.sort alt)).Passes (Named g P) Recalls s fun s' k =>
      s'.known[v.name]? = some k ∧ ∀ name ≠ v.name, s'.known[name]? = s.known[name]? :=
  have ⟨_, _, hk, hs', hr, hq⟩ := restore_named hg hP alt hv hs
  .of_gives hk hs' hr hq

omit hP in
theorem passes_know_edge {e : Edge} (he : e ∈ g.edges) (hs : Named g P s)
    (hu : s.known[e.name]? = none) (hk : k ≠ .nothing → s.KnownAs P e.name k)
    (hb : ∀ c, Graph.NamesElement e.sort c → k ≠ .nothing) :
    (SessionM.know e.name k >>= fun _ => pure k).Passes (Named g P) Recalls s fun s' k' =>
      s'.known[e.name]? = some k' := by
  have hn : Named g P (s.know e.name k) := hs.know (.inl hu) hk fun hb' =>
    have ⟨c, hc⟩ := hg.builds_edge he hb'
    hb c hc
  refine .of_gives (gives_known ..) hn ?_ (known_know ..)
  exact recalls_know hu (.inr (hs.graph ▸ Graph.edge?_ne_none he))

omit hg hP in
theorem passes_make (hs : Named g P s) :
    (make spec).Passes (Named g P) Recalls s fun s' k =>
      s' = s.numbered ∧ Term.make s.next spec = .ok k := by
  refine Passes.bind (Q := fun s' n => s' = s.numbered ∧ n = s.next) ?_ ?_
  · exact .of_gives (gives_modifyGet.mpr rfl) (named_numbered hs) (recalls_numbered s) ⟨rfl, rfl⟩
  · rintro _ _ hs' _ ⟨rfl, rfl⟩
    exact passes_ofExcept hs' fun k hk => ⟨rfl, hk⟩

omit hg hP in
theorem knownAs_of_make {d c : Term} {n : Nat} (hs : Named g P s) (hk : Term.make n spec = .ok k)
    (hc : spec.cls.isElement) (hn : spec.constr = none) (hi : spec.id? = none)
    (hd : spec.domain = d.present) (hcd : spec.codomain = c.present) (hp : P spec.name spec.cls)
    (hdm : d ≠ .nothing → s.Met d) (hcm : c ≠ .nothing → s.Met c) : s.KnownAs P spec.name k := by
  obtain ⟨sort, ty, d', rfl, hd'⟩ := Term.make_element_shape hk hc hn
  refine .kind ?_ hp (fun _ => ⟨n, by simp [KindSpec.head, hi]⟩) fun e he => ?_
  · rw [if_neg]
    · rfl
    · intro h
      have : spec.cls = .one := h
      simp [this, isElement, isType] at hc
  obtain he | he := mem_append.mp he
  case inl =>
    obtain rfl | rfl := hd'
    · rw [hd, Option.mem_toList] at he
      obtain ⟨rfl, hne⟩ := present_eq_some.mp he
      exact ⟨hne, hdm hne⟩
    · obtain rfl : e = .one := by simpa using he
      exact ⟨by simp [Term.one], "1", hs.one⟩
  case inr =>
    rw [hcd, Option.mem_toList] at he
    obtain ⟨rfl, hne⟩ := present_eq_some.mp he
    exact ⟨hne, hcm hne⟩

theorem passes_restore_edge {e : Edge} (he : e ∈ g.edges) (hs : Named g P s) :
    (restore (.ofEdge e)).Passes (Named g P) Recalls s fun s' k => s'.known[e.name]? = some k := by
  cases h : s.known[e.name]?
  case some k => exact .of_gives (restore_of_known h) hs (.refl s) h
  case none =>
    rw [Record.ofEdge, restore]
    refine (passes_get hs).bind ?_
    rintro _ _ _ _ ⟨rfl, rfl⟩
    simp only [h]
    cases hl : ofLabel? e.sort
    case none =>
      refine (passes_pure (Q := fun s' k => s = s' ∧ k = .nothing) hs ⟨rfl, rfl⟩).bind ?_
      rintro _ _ _ _ ⟨rfl, rfl⟩
      exact passes_know_edge hg he hs h (by simp) fun c hc => by simp [hc.left] at hl
    case some c =>
      have hc := hg.elements e he c hl
      have hc' : c.isType = false := by simpa [isElement] using hc
      obtain ⟨v, hv, hvn, hvs⟩ := hg.source e he
      obtain ⟨w, hw, hwn, hws⟩ := hg.target e he
      simp only [hc', Bool.false_eq_true, if_false, restore.recallEnd, Record.ofEnd, ← hvn, ← hvs,
        ← hwn, ← hws]
      refine (passes_restore_node hg hP none hv hs).bind ?_
      rintro d s₁ hs₁ hr₁ ⟨hd, hk₁⟩
      refine (passes_restore_node hg hP none hw hs₁).bind ?_
      rintro d' s₂ hs₂ hr₂ ⟨hd', hk₂⟩
      have hu : s₂.known[e.name]? = none := by
        rw [hk₂ _ (hg.name_ne hw he).symm, hk₁ _ (hg.name_ne hv he).symm, h]
      split
      case isFalse hb =>
        refine (passes_pure (Q := fun s' k => s₂ = s' ∧ k = .nothing) hs₂ ⟨rfl, rfl⟩).bind ?_
        rintro _ _ _ _ ⟨rfl, rfl⟩
        refine passes_know_edge hg he hs₂ hu (by simp) fun c' hc' => ?_
        obtain rfl := Option.some.inj (hl.symm.trans hc'.left)
        exact absurd hc'.right.right hb
      case isTrue hb =>
        refine (passes_make hs₂).bind ?_
        rintro k _ hs₃ hr₃ ⟨rfl, hk⟩
        have hka := knownAs_of_make hs₃ hk hc rfl rfl rfl rfl (hP.edge e he c hl)
          (fun _ => ⟨_, hr₂.known _ _ hd⟩) fun _ => ⟨_, hd'⟩
        exact passes_know_edge hg he hs₃ hu (fun _ => hka) fun _ _ => hka.ne_nothing

theorem recalling : Recalling g (Named g P) Recalls where
  graph hs   := hs.graph
  known hr   := hr.known
  node hs hv := (passes_restore_node hg hP _ hv hs).imp fun _ _ _ _ h => h.left
  edge hs he := passes_restore_edge hg hP he hs

-- A variable that is made under a name that was unknown is known from then on.
omit hP hg in
theorem passes_know_variable {d c : Term} {f : Term → SessionM α} {T : Session → α → Prop}
    (hs : Named g P s) (hu : s.Unknown spec.name) (hv : spec.cls = .variable)
    (hn : spec.constr = none) (hi : spec.id? = none) (hd : spec.domain = d.present)
    (hcd : spec.codomain = c.present) (hp : P spec.name .variable) (hdm : d ≠ .nothing → s.Met d)
    (hcm : c ≠ .nothing → s.Met c)
    (hf : ∀ v s', Named g P s' → s.Grows s' → s'.known[spec.name]? = some v → v ≠ .nothing →
      (f v).Passes (Named g P) Grows s' T) :
    (make spec >>= fun v => SessionM.know spec.name v >>= fun _ => f v).Passes
      (Named g P) Grows s T := by
  have hm : (make spec).Passes (Named g P) Grows s fun s' k =>
      s' = s.numbered ∧ Term.make s.next spec = .ok k :=
    ((passes_make hs).weaken Recalls.grows).imp fun _ _ _ _ h => h.right
  refine hm.bind ?_
  rintro v _ hs' hg' ⟨rfl, hk⟩
  have hka : s.numbered.KnownAs P spec.name v :=
    knownAs_of_make hs' hk (by simp [hv, isElement, isType]) hn hi hd hcd
      (hv ▸ hp) hdm hcm
  have hgr : s.numbered.Grows (s.numbered.know spec.name v) := Grows.know hu
  have hk' := hs'.know hu (fun _ => hka) fun _ => hka.ne_nothing
  refine Passes.bind (Q := fun s' _ => s' = s.numbered.know spec.name v)
    (.of_gives (gives_know ..) hk' hgr rfl) ?_
  rintro _ _ _ _ rfl
  exact hf v _ hk' (hg'.trans hgr) (known_know ..) hka.ne_nothing

-- The same in the weaker sense that kinds stay known.
theorem passes_lookUp (name : String) (hs : Named g P s) :
    (kindOfSort name "Variable").Passes (Named g P) Grows s fun s' k => s.Recalls s' ∧
      (s'.known[name]? = some k ∨ k = .nothing ∧ s'.known[name]? = none ∧ g.edge? name = none) :=
  ((recalling hg hP).variableNamed name hs).weaken Recalls.grows

theorem passes_counting {p : Term} (hp : ∀ name, P name .variable) (hs : Named g P s)
    (hm : s.Met p) (hn : p ≠ .nothing) :
    (counting p).Passes (Named g P) Grows s fun s' k => s'.Met k := by
  refine (passes_ofExcept (Q := fun s' _ => s = s') hs fun _ _ => rfl).bind ?_
  rintro name _ _ _ rfl
  refine (passes_lookUp hg hP _ hs).bind fun k s' hs' hr ⟨_, hk⟩ => ?_
  split
  case h_2 hne =>
    obtain hk | ⟨rfl, _⟩ := hk
    · exact passes_pure hs' ⟨_, hk⟩
    · exact absurd rfl hne
  case h_1 =>
    refine (passes_get hs').bind ?_
    rintro _ _ _ _ ⟨rfl, rfl⟩
    have ⟨h, hnum, _⟩ := hs'.number
    have hnum : some s'.number = s'.number.present := by rw [hnum]; rfl
    exact passes_know_variable hs' (hk.symm.imp_left (·.2.1)) rfl rfl rfl rfl hnum (hp _)
      (fun _ => hm.grows hn hr) (fun _ => ⟨_, hs'.getal⟩) fun v s'' hs'' _ hv _ =>
        passes_pure hs'' ⟨_, hv⟩

theorem passes_together {p : Term} (hp : ∀ name, P name .variable) (hs : Named g P s)
    (hm : s.Met p) (hn : p ≠ .nothing) :
    (together p).Passes (Named g P) Grows s fun s' k => s'.Met k ∨
      s.Unknown (togetherTitle p.printed) ∧ ∀ e ∈ g.edges, e.name = togetherTitle p.printed →
        ¬∃ c, Graph.NamesElement e.sort c := by
  refine (passes_lookUp hg hP _ hs).bind fun k s' hs' hr ⟨hr', hk⟩ => ?_
  split
  case h_2 hne =>
    obtain hk | ⟨rfl, _⟩ := hk
    · exact passes_pure hs' (.inl ⟨_, hk⟩)
    · exact absurd rfl hne
  case h_1 =>
    have hu : s'.Unknown (togetherTitle p.printed) := hk.symm.imp_left (·.2.1)
    have hu₀ : s.Unknown (togetherTitle p.printed) := by
      cases h : s.known[togetherTitle p.printed]?
      case none => exact .inl h
      case some l =>
        have hl := hr'.known _ _ h
        obtain hu | hu := hu
        · simp [hu] at hl
        · exact .inr (h.trans (hl.symm.trans hu))
    have he : ∀ e ∈ g.edges, e.name = togetherTitle p.printed →
        ¬∃ c, Graph.NamesElement e.sort c := by
      intro e he hen hb
      obtain hk | ⟨_, _, hk⟩ := hk
      · exact hs'.built _ (.inr ⟨e, he, hen, hb⟩) hk
      · exact Graph.edge?_ne_none he (hen ▸ hk)
    refine passes_know_variable hs' hu rfl rfl rfl rfl rfl (hp _)
      (fun _ => hm.grows hn hr) (fun _ => ⟨_, hs'.one⟩) fun v s'' hs'' hgr hv _ => ?_
    exact ((passes_make hs'').weaken Recalls.grows).imp fun _ _ _ _ _ => .inr ⟨hu₀, he⟩

theorem passes_operand {o : Operand} (ho : ∀ v ∈ g.nodes, v.name ≠ o.name) (hp : P o.name .variable)
    (hs : Named g P s) : (operand o).Passes (Named g P) Grows s fun _ _ => True := by
  refine (passes_lookUp hg hP _ hs).bind fun k s₁ hs₁ hr₁ ⟨_, hk⟩ => ?_
  split
  case h_2 => exact passes_pure hs₁ trivial
  case h_1 =>
    have end_ (name : String) (s : Session) (hs : Named g P s) :
        (kindNamed name).Passes (Named g P) Grows s fun s' k => s.Recalls s' ∧
          (s'.known[name]? = some k ∨ k = .nothing) :=
      ((recalling hg hP).kindNamed name hs).weaken Recalls.grows
    refine (end_ o.domain s₁ hs₁).bind fun d s₂ hs₂ hr₂ ⟨hrc₂, hd⟩ => ?_
    refine (end_ o.codomain s₂ hs₂).bind fun c s₃ hs₃ hr₃ ⟨hrc₃, hc⟩ => ?_
    have hu : s₃.Unknown o.name := by
      obtain hk | ⟨_, hk, he⟩ := hk
      · exact .inr ((hrc₂.trans hrc₃).known _ _ hk)
      · refine .inl (((hrc₂.trans hrc₃).new _ ?_ (hs₁.graph ▸ he)).trans hk)
        exact Array.find?_eq_none.mpr fun v hv => by simpa using ho v (hs₁.graph ▸ hv)
    exact passes_know_variable hs₃ hu rfl rfl rfl rfl rfl hp
      (fun hne => ⟨_, hrc₃.known _ _ (hd.resolve_right hne)⟩) (fun hne => ⟨_, hc.resolve_right hne⟩)
      fun _ _ hs₄ _ _ _ => passes_pure hs₄ trivial

end Actions

end SessionM

-- The class of the kind under a name when a session has been opened: that of the node with this
-- name, or one of elements if there is no such node.
def Graph.Tells (g : Graph) (name : String) (c : KindClass) : Prop :=
  name = "getal" ∧ c = .quantity ∨
    (∃ v ∈ g.nodes, v.name = name ∧ ofLabel? v.sort = some c) ∨
    c.isElement ∧ ∀ v ∈ g.nodes, v.name ≠ name

theorem Graph.Distinct.gives {g : Graph} (h : g.Distinct) : g.Gives g.Tells where
  node v hv _ hc := .inr (.inl ⟨v, hv, rfl, hc⟩)
  edge e he c hc := .inr (.inr ⟨h.elements e he c hc, fun _ hv => h.name_ne hv he⟩)

-- No name is used twice, also not for the variables of designs.
structure Model.Distinct (m : Model) : Prop where
  graph   : m.graph.Distinct
  designs : ∀ d ∈ m.designs, ∀ o ∈ d.operands, ∀ v ∈ m.graph.nodes, v.name ≠ o.name

namespace SessionM

open Session

variable {m : Model} {s : Session}

theorem named_of_first (hn : Term.make 1 { cls := .quantity, name := "getal" } = .ok s.number)
    (hg : s.graph = m.graph)
    (hk : s.known = (({} : Session).know "1" .one |>.know "getal" s.number).known) :
    Named m.graph m.graph.Tells s := by
  have hone : s.known["1"]? = some .one := by rw [hk, known_know_of_ne _ _ (by decide), known_know]
  have hnumber : s.known["getal"]? = some s.number := by rw [hk, known_know]
  obtain ⟨h, hm, hc, hi, hna⟩ :=
    make_type_shape 1 { cls := .quantity, name := "getal" } rfl rfl rfl
  have hnum : s.number = .kind h none none none none := (Except.ok.inj (hm.symm.trans hn)).symm
  have known {name : String} {k : Term} (h : s.known[name]? = some k) :
      name = "1" ∧ k = .one ∨ name = "getal" ∧ k = s.number := by
    by_cases h1 : name = "1"
    case pos =>
      subst h1
      exact .inl ⟨rfl, Option.some.inj (h.symm.trans hone)⟩
    case neg =>
      by_cases h2 : name = "getal"
      case pos =>
        subst h2
        exact .inr ⟨rfl, Option.some.inj (h.symm.trans hnumber)⟩
      case neg => simp [known_of_first hk h1 h2] at h
  refine ⟨hg, hone, hnumber, ⟨h, hnum, hc⟩, fun name k hk' _ => ?_, fun name _ hk' => ?_⟩
  · obtain ⟨rfl, rfl⟩ | ⟨rfl, rfl⟩ := known hk'
    · exact .kind rfl (.inr (.inl ⟨_, m.first_mem_nodes, rfl, rfl⟩)) (by simp) (by simp)
    · rw [hnum]
      exact .kind hna (.inl ⟨rfl, hc⟩) (fun _ => ⟨1, hi⟩) (by simp)
  · obtain ⟨_, hk'⟩ | ⟨_, hk'⟩ := known hk'
    · simp [Term.one] at hk'
    · simp [hnum] at hk'

theorem passes_objectTypes (hm : m.Distinct) (hs : Named m.graph m.graph.Tells s) :
    ((s.graph.nodesOfSort "ObjectType").mapM fun v => restore (.ofNode v)).Passes
      (Named m.graph m.graph.Tells) Recalls s fun s' ks => Forall₂
        (fun (v : Node) k => s'.known[v.name]? = some k) (m.graph.nodesOfSort "ObjectType") ks := by
  rw [hs.graph]
  refine passes_mapM_forall₂ (T := fun s' (v : Node) k => s'.known[v.name]? = some k) hs ?_ ?_
  · exact fun _ _ v k hr hk => hr.known v.name k hk
  · intro v hv s' hs' _
    have hv := Array.mem_def.mpr (mem_of_mem_filter hv)
    exact (recalling hm.graph hm.graph.gives).node hs' hv

theorem start_recalled (hm : m.Distinct) (h : Session.start m = .ok s) :
    Named m.graph m.graph.Tells s ∧ Forall₂ (fun v k => s.known[v.name]? = some k)
      (m.graph.nodesOfSort "ObjectType") s.objectTypes := by
  have hd : Keeps (Named m.graph m.graph.Tells) (m.designs.mapM readDesign) fun _ => True := by
    refine keeps_mapM fun d hd => keeps_readDesign (fun _ => named_numbered) fun o ho => ?_
    have ho := hm.designs d hd o ho
    have hp : m.graph.Tells o.name .variable := .inr (.inr ⟨rfl, ho⟩)
    exact .of_passes fun s hs => passes_operand hm.graph hm.graph.gives ho hp hs
  have ⟨u, h⟩ := start_gives h
  have ⟨s₁, s₂, ks, hs₁, hks, he⟩ := start_reads h
    (fun name sort => .of_passes fun _ hs =>
      (recalling hm.graph hm.graph.gives).kindOfSort name sort hs) hd
    (fun _ _ hs hg hn hk _ => hs.of_eq hg hn hk) fun _ hn hg hk _ => named_of_first hn hg hk
  have hp := passes_objectTypes hm hs₁
  rw [Passes, hks] at hp
  subst he
  exact ⟨hp.left.of_eq rfl rfl rfl, hp.right.right ks rfl⟩

theorem start_named (hm : m.Distinct) (h : Session.start m = .ok s) :
    Named m.graph m.graph.Tells s ∧ ∀ k ∈ s.objectTypes, s.Met k := by
  have ⟨hs, hk⟩ := start_recalled hm h
  refine ⟨hs, fun k hm => ?_⟩
  have ⟨v, _, hk⟩ := exists_of_mem_right hk hm
  exact ⟨v.name, hk⟩

theorem start_unknown (hm : m.Distinct) (hd : m.designs = []) (h : Session.start m = .ok s)
    {name : String} (hv : m.graph.node? name = none) (he : m.graph.edge? name = none)
    (hn : name ≠ "getal") : s.known[name]? = none := by
  have h1 : name ≠ "1" := by
    rintro rfl
    exact Graph.node?_ne_none m.first_mem_nodes hv
  have kept {s s' : Session} (hs : Named m.graph m.graph.Tells s ∧ s.known[name]? = none)
      (hr : s.Recalls s') : s'.known[name]? = none := by
    rw [hr.new name (hs.left.graph ▸ hv) (hs.left.graph ▸ he), hs.right]
  have ⟨u, h⟩ := start_gives h
  have ⟨s₁, s₂, ks, hs₁, hks, hs⟩ := start_reads h
    (I := fun s => Named m.graph m.graph.Tells s ∧ s.known[name]? = none)
    (fun name sort s hs =>
      have ⟨hs', hr, _⟩ := (recalling hm.graph hm.graph.gives).kindOfSort name sort hs.left
      ⟨⟨hs', kept hs hr⟩, fun _ _ => trivial⟩)
    (hd ▸ keeps_pure trivial) (fun _ _ hs hg hn hk _ => ⟨hs.left.of_eq hg hn hk, hk ▸ hs.right⟩)
    fun _ hn' hg hk _ => ⟨named_of_first hn' hg hk, known_of_first hk h1 hn⟩
  have hp := passes_objectTypes hm hs₁.left
  rw [Passes, hks] at hp
  have hu : s₂.known[name]? = none := kept hs₁ hp.right.left
  exact hs ▸ hu

end SessionM
end Inquiry
