import Mathlib
import Inquiry.Proofs.Session.Identity

/-!
Graphs that can be read, although a name may be used twice. If the ends of all edges are told to be
types and no edge is called as one of them, recalling the kind of an edge never fails, and so paths
can be told in every state of a session.
-/

namespace Inquiry

namespace Graph

def IsEnd (g : Graph) (name : String) : Prop :=
  ∃ e ∈ g.edges, name = e.domain.name ∨ name = e.codomain.name

instance {g : Graph} {name : String} : Decidable (g.IsEnd name) :=
  inferInstanceAs (Decidable (∃ e ∈ g.edges, _))

-- No elements are called by the sort.
def TellsType (sort : String) : Prop :=
  ∀ c, KindClass.ofLabel? sort = some c → c.isType

instance {sort : String} : Decidable (TellsType sort) :=
  inferInstanceAs (Decidable (∀ c, KindClass.ofLabel? sort = some c → c.isType))

structure Legible (g : Graph) : Prop where
  elements : ∀ e ∈ g.edges, ∀ c, KindClass.ofLabel? e.sort = some c → c.isElement
  source   : ∀ e ∈ g.edges, TellsType e.domain.sort
  target   : ∀ e ∈ g.edges, TellsType e.codomain.sort
  apart    : ∀ e ∈ g.edges, ¬g.IsEnd e.name

end Graph

-- The variables of designs are not called as the end of an edge either.
structure Model.Legible (m : Model) : Prop where
  graph   : m.graph.Legible
  designs : ∀ d ∈ m.designs, ∀ o ∈ d.operands, ¬m.graph.IsEnd o.name

namespace Session

variable {g : Graph} {s s' : Session} {name : String} {k : Term}

-- Under the names of ends only types are known, or nothing at all.
structure Legible (g : Graph) (s : Session) : Prop where
  graph : s.graph = g
  ends  : ∀ name, g.IsEnd name → ∀ k, s.known[name]? = some k → k ≠ .nothing → k.TypeKind

theorem Legible.of_eq (h : s.Legible g) (hg : s'.graph = s.graph) (hk : s'.known = s.known) :
    s'.Legible g :=
  ⟨hg.trans h.graph, hk ▸ h.ends⟩

theorem Legible.know (h : s.Legible g) (hk : g.IsEnd name → k ≠ .nothing → k.TypeKind) :
    (s.know name k).Legible g where
  graph := h.graph
  ends name' he k' hk' hn := by
    by_cases hne : name' = name
    case pos =>
      rw [hne, known_know] at hk'
      obtain rfl := Option.some.inj hk'
      exact hk (hne ▸ he) hn
    case neg =>
      rw [known_know_of_ne s k hne] at hk'
      exact h.ends name' he k' hk' hn

end Session

namespace SessionM

open Session

variable {g : Graph} {m : Model} {s s₀ : Session} {name sort : String}

theorem restore_type_legible (name : String) (altname : Option String) (ht : Graph.TellsType sort)
    (hs : s.Legible g) :
    ∃ k s', (restore (typeRecord name sort altname)).Gives s k s' ∧ s'.Legible g ∧ s.Later s' ∧
      s'.known[name]? = some k ∧ ∀ name' ≠ name, s'.known[name']? = s.known[name']? := by
  cases h : s.known[name]?
  case some k => exact ⟨k, s, restore_of_known h, hs, .refl s, h, fun _ _ => rfl⟩
  case none =>
    by_cases hn : Graph.NamesType sort
    case pos =>
      have ⟨k, hk, _, hr⟩ := restore_of_unknown altname h hn
      have hs' : s.numbered.Legible g := hs.of_eq rfl rfl
      have hl : s.Later (s.numbered.know name k) := (Later.numbered s).trans (.know h)
      refine ⟨k, _, hr, hs'.know fun _ _ => hk, hl, known_know .., ?_⟩
      exact fun name' hne => known_know_of_ne s.numbered k hne
    case neg =>
      refine ⟨.nothing, _, restore_unmade altname h ht hn, hs.know fun _ hn => absurd rfl hn,
        .know h, known_know .., fun name' hne => known_know_of_ne s _ hne⟩

-- A node that is told to be an element has no ends, and is not recalled.
theorem passes_restore_legible {v : Node} (hs : s.Legible g) :
    (restore (.ofNode v)).Passes (Legible g) Later s fun s' k => s'.known[v.name]? = some k := by
  by_cases ht : Graph.TellsType v.sort
  case pos =>
    have ⟨k, s', hk, hs', hl, hkn, _⟩ := restore_type_legible v.name v.altname ht hs
    exact .of_gives hk hs' hl hkn
  case neg =>
    cases h : s.known[v.name]?
    case some k => exact .of_gives (restore_of_known h) hs (.refl s) h
    case none =>
      have ⟨c, hc, hct⟩ : ∃ c, KindClass.ofLabel? v.sort = some c ∧ c.isType = false := by
        simpa [Graph.TellsType] using ht
      rw [Record.ofNode, restore]
      refine (passes_get hs).bind ?_
      rintro _ _ _ _ ⟨rfl, rfl⟩
      simp only [h, hc, hct]
      exact passes_throw hs

theorem exists_make_edge {e : Edge} {c : KindClass} {d d' : Term} {s' : Session} (he : e ∈ g.edges)
    (hc : c.isElement) (hs : s.Legible g) (hs' : s'.Legible g)
    (hd : s.known[e.domain.name]? = some d) (hd' : s'.known[e.codomain.name]? = some d') (n : Nat) :
    ∃ k, Term.make n (edgeSpec e c d d') = .ok k := by
  apply Term.exists_make_element hc rfl rfl
  · intro k hk
    obtain ⟨rfl, hn⟩ := Term.present_eq_some.mp hk
    exact hs.ends _ ⟨e, he, .inl rfl⟩ d hd hn
  · intro k hk
    obtain ⟨rfl, hn⟩ := Term.present_eq_some.mp hk
    exact hs'.ends _ ⟨e, he, .inr rfl⟩ d' hd' hn

section Recalling

variable (hg : g.Legible)
include hg

theorem restore_edge_legible {e : Edge} (he : e ∈ g.edges) (hs : s.Legible g) :
    ∃ k s', (restore (.ofEdge e)).Gives s k s' ∧ s'.Legible g ∧ s.Later s' ∧
      s'.known[e.name]? = some k := by
  cases h : s.known[e.name]?
  case some k => exact ⟨k, s, restore_of_known h, hs, .refl s, h⟩
  case none =>
    obtain ⟨d, s₁, hd, hs₁, hl₁, hk₁, hu₁⟩ :=
      restore_type_legible e.domain.name none (hg.source e he) hs
    obtain ⟨d', s₂, hd', hs₂, hl₂, hk₂, hu₂⟩ :=
      restore_type_legible e.codomain.name none (hg.target e he) hs₁
    have hl := hl₁.trans hl₂
    -- the name of the edge is still unknown when its kind becomes known
    have hu : s₂.known[e.name]? = none := by
      rw [hu₂ _ fun h => hg.apart e he ⟨e, he, .inr h⟩,
        hu₁ _ fun h => hg.apart e he ⟨e, he, .inl h⟩, h]
    have finish (k : Term) (s₁ : Session) (hs₁ : s₁.Legible g) (hl : s.Later s₁)
        (hu : s₁.known[e.name]? = none)
        (hk : (restore (.ofEdge e)).Gives s k (s₁.know e.name k)) :
        ∃ k s', (restore (.ofEdge e)).Gives s k s' ∧
          s'.Legible g ∧ s.Later s' ∧ s'.known[e.name]? = some k :=
      ⟨k, _, hk, hs₁.know fun hend => absurd hend (hg.apart e he), hl.trans (.know hu),
        known_know ..⟩
    by_cases hb : ∃ c, Graph.NamesElement e.sort c
    case pos =>
      obtain ⟨c, hc⟩ := hb
      obtain ⟨k, hk⟩ := exists_make_edge he hc.right.left hs₁ hs₂ hk₁ hk₂ s₂.next
      exact finish k s₂.numbered (hs₂.of_eq rfl rfl) (hl.trans (.numbered s₂)) hu
        (restore_made_edge h hc hd hd' hk)
    case neg =>
      obtain ⟨s', rfl | rfl, hr⟩ := restore_unmade_edge h (hg.elements e he) hb hd hd'
      · exact finish .nothing s' hs (.refl s') h hr
      · exact finish .nothing s' hs₂ hl hu hr

theorem recalling_legible : Recalling g (Legible g) Later where
  graph hs   := hs.graph
  known hl   := hl.known
  node hs _  := passes_restore_legible hs
  edge hs he :=
    have ⟨_, _, hk, hs', hl, hkn⟩ := restore_edge_legible hg he hs
    .of_gives hk hs' hl hkn

theorem tellsPaths_legible : TellsPaths (Legible g) := by
  refine tellsPaths_of_edges (fun hs => hs.graph) fun e he s hs => ?_
  have ⟨k, s', hk, hs', _⟩ := restore_edge_legible hg he hs
  exact ⟨k, s', hk, hs'⟩

end Recalling

theorem legible_of_first (hn : Term.make 1 { cls := .quantity, name := "getal" } = .ok s.number)
    (hg : s.graph = g)
    (hk : s.known = (({} : Session).know "1" .one |>.know "getal" s.number).known) :
    s.Legible g where
  graph := hg
  ends name _ k hk' _ := by
    by_cases hname : name = "getal"
    case pos =>
      rw [hname, hk, known_know] at hk'
      exact Option.some.inj hk' ▸ typeKind_of_make hn rfl rfl rfl
    case neg =>
      by_cases hone : name = "1"
      case pos =>
        rw [hone, hk, known_know_of_ne _ _ (by decide), known_know] at hk'
        exact Option.some.inj hk' ▸ Term.typeKind_one
      case neg => simp [known_of_first hk hone hname] at hk'

theorem start_legible (hm : m.Legible) (h : Session.start m = .ok s) : s.Legible m.graph := by
  have rc := recalling_legible hm.graph
  have kind (name sort : String) : Keeps (Legible m.graph) (kindOfSort name sort) fun _ => True :=
    .of_passes fun _ hs => rc.kindOfSort name sort hs
  have named (name : String) : Keeps (Legible m.graph) (kindNamed name) fun _ => True :=
    .of_passes fun _ hs => rc.kindNamed name hs
  have numbered (s : Session) (hs : s.Legible m.graph) : s.numbered.Legible m.graph :=
    hs.of_eq rfl rfl
  have made {o : Operand} (ho : ¬m.graph.IsEnd o.name) :
      Keeps (Legible m.graph) (operand o) fun _ => True := by
    refine (kind _ _).bind fun k _ => ?_
    split
    case h_1 =>
      refine (named _).bind fun _ _ => (named _).bind fun _ _ => ?_
      refine (keeps_make numbered _).bind fun v _ => ?_
      refine (keeps_modify fun s hs => ?_).bind fun _ _ => keeps_done
      exact hs.know fun h => absurd h ho
    case h_2 => exact keeps_done
  have designs : Keeps (Legible m.graph) (m.designs.mapM readDesign) fun _ => True :=
    keeps_mapM fun d hd => keeps_readDesign numbered fun o ho => made (hm.designs d hd o ho)
  have ⟨u, h⟩ := start_gives h
  have ⟨s₁, s₂, ks, hs₁, hks, he⟩ := start_reads h kind designs
    (fun _ _ hs hg _ hk _ => hs.of_eq hg hk) fun _ hn hg hk _ => legible_of_first hn hg hk
  have types : Keeps (Legible m.graph) ((s₁.graph.nodesOfSort "ObjectType").mapM fun v =>
      restore (.ofNode v)) fun _ => True :=
    keeps_mapM fun v _ => .of_passes fun _ hs => passes_restore_legible hs
  exact he ▸ (types.gives hs₁ hks).of_eq rfl rfl

theorem Reached.legible (hm : m.Legible) (h₀ : Session.start m = .ok s₀) (h : Reached s₀ s) :
    s.Legible m.graph :=
  (h.passes (recalling_legible hm.graph) (start_legible hm h₀)).left

end SessionM
end Inquiry
