import Mathlib
import Inquiry.Graph.Basic

/-!
What the trails of a graph are: edges of the graph, each of which begins where the one before it
ends. There is a trail from one node to another exactly if the other one can be reached over edges:
edges that are used twice can be cut out of a walk.
-/

namespace Inquiry

open List

namespace Graph

-- The edges lead from the node `v` to a node called `dest`.
inductive Trail (g : Graph) (dest : String) : Nat → List Edge → Prop
  | single {e} : (e ∈ g.edges) → (g.nameOf e.target = some dest) → Trail g dest e.source [e]
  | cons {e es} : (e ∈ g.edges) → (Trail g dest e.target es) → Trail g dest e.source (e :: es)

def Step (g : Graph) (a b : String) : Prop :=
  ∃ e ∈ g.edges, g.nameOf e.source = some a ∧ g.nameOf e.target = some b

-- As a trail, but edges may be used twice. The edges are given by their numbers.
inductive Walk (g : Graph) (dest : String) : Nat → List Nat → Prop
  | single {i e} : g.edges[i]? = some e → g.nameOf e.target = some dest → Walk g dest e.source [i]
  | cons {i e is} : g.edges[i]? = some e → Walk g dest e.target is → Walk g dest e.source (i :: is)

variable {g : Graph} {a b dest : String} {v i n : Nat} {e : Edge} {es : List Edge}
  {is js used : List Nat}

theorem outgoing_getElem? (hv : v < g.nodes.size) :
    g.outgoing[v]? = some ((g.edges.toList.zipIdx.filter (·.1.source == v)).map Prod.swap) := by
  rw [outgoing]
  induction g.edges.toList.zipIdx
  case nil => simp [hv]
  case cons a es ih =>
    simp only [foldr_cons, Array.getElem?_modify, ih, filter_cons]
    by_cases h : a.1.source = v <;> simp [h, Prod.swap]

theorem outgoing_size (g : Graph) : g.outgoing.size = g.nodes.size := by
  rw [outgoing]
  induction g.edges.toList.zipIdx <;> simp_all

theorem mem_of_mem_outgoing (h : (i, e) ∈ g.outgoing[v]?.getD []) :
    e ∈ g.edges ∧ e.source = v := by
  by_cases hv : v < g.nodes.size
  case pos =>
    rw [outgoing_getElem? hv] at h
    simp only [Option.getD_some, mem_map, mem_filter] at h
    obtain ⟨⟨_, _⟩, ⟨hm, hs⟩, he⟩ := h
    cases he
    exact ⟨by simpa using fst_mem_of_mem_zipIdx hm, by simpa using hs⟩
  case neg => simp [outgoing_size, Nat.not_lt.mp hv] at h

theorem trail_of_mem_trailsFrom (h : es ∈ g.trailsFrom g.outgoing dest n used v) :
    Trail g dest v es := by
  induction n generalizing used v es
  case zero => simp [trailsFrom] at h
  case succ n ih =>
    simp only [trailsFrom, mem_flatMap] at h
    obtain ⟨⟨i, e⟩, he, h⟩ := h
    obtain ⟨hm, rfl⟩ := mem_of_mem_outgoing he
    split at h
    case isTrue => simp at h
    case isFalse =>
      simp only [mem_append, mem_map] at h
      cases h
      case inl h =>
        split at h
        case isTrue hd =>
          simp only [mem_singleton] at h
          exact h ▸ .single hm (by simpa using hd)
        case isFalse => simp at h
      case inr h =>
        have ⟨es', h, he⟩ := h
        exact he ▸ .cons hm (ih h)

theorem trail_of_mem_trails (h : es ∈ g.trails a dest) :
    ∃ v, g.nameOf v = some a ∧ Trail g dest v es := by
  simp only [trails, numbersOf, mem_flatMap, mem_filter, mem_range] at h
  have ⟨v, ⟨_, hv⟩, h⟩ := h
  refine ⟨v, ?_, trail_of_mem_trailsFrom h⟩
  cases hn : g.nodes[v]? <;> simp_all [nameOf]

theorem mem_outgoing (hv : e.source < g.nodes.size) (he : g.edges[i]? = some e) :
    (i, e) ∈ g.outgoing[e.source]?.getD [] := by
  rw [outgoing_getElem? hv]
  simp only [Option.getD_some, mem_map, mem_filter]
  refine ⟨(e, i), ⟨?_, by simp⟩, rfl⟩
  simpa [mem_zipIdx_iff_getElem?] using he

namespace Walk

theorem lt_size (h : Walk g dest v is) : ∀ i ∈ is, i < g.edges.size := by
  induction h
  case single he _ => simpa using (Array.getElem?_eq_some_iff.mp he).1
  case cons he _ ih =>
    simpa using ⟨(Array.getElem?_eq_some_iff.mp he).1, ih⟩

theorem suffix (h : Walk g dest v (is ++ i :: js)) (he : g.edges[i]? = some e) :
    Walk g dest e.source (i :: js) := by
  generalize hk : is ++ i :: js = ks at h
  induction h generalizing is
  case single j e' he' hd =>
    cases is <;> simp at hk
    obtain ⟨rfl, rfl⟩ := hk
    exact Option.some.inj (he'.symm.trans he) ▸ .single he' hd
  case cons j e' ks he' h ih =>
    cases is
    case nil =>
      obtain ⟨rfl, rfl⟩ := List.cons.inj hk
      exact Option.some.inj (he'.symm.trans he) ▸ .cons he' h
    case cons => exact ih (List.cons.inj hk).right

-- Where an edge is used again, the walk is begun with its last use.
theorem exists_nodup (h : Walk g dest v is) : ∃ js, Walk g dest v js ∧ js.Nodup := by
  induction h
  case single he hd => exact ⟨_, .single he hd, by simp⟩
  case cons i e is he _ ih =>
    have ⟨js, hw, hn⟩ := ih
    by_cases hi : i ∈ js
    case neg => exact ⟨i :: js, .cons he hw, by simp [hi, hn]⟩
    case pos =>
      have ⟨xs, ys, hjs⟩ := append_of_mem hi
      subst hjs
      exact ⟨i :: ys, hw.suffix he, (nodup_append.mp hn).2.1⟩

theorem length_le (h : Walk g dest v is) (hn : is.Nodup) : is.length ≤ g.edges.size := by
  have hs : is.Subperm (List.range g.edges.size) :=
    hn.subperm fun i hi => by simpa using h.lt_size i hi
  simpa using hs.length_le

end Walk

theorem trailsFrom_ne_nil (hg : ∀ e ∈ g.edges, e.source < g.nodes.size)
    (h : Walk g dest v is) (hn : is.Nodup) (hu : ∀ i ∈ is, i ∉ used) (hl : is.length ≤ n) :
    g.trailsFrom g.outgoing dest n used v ≠ [] := by
  induction h generalizing n used
  case single i e he hd =>
    cases n
    case zero => simp at hl
    case succ n =>
      have hm := mem_outgoing (hg e (Array.mem_of_getElem? he)) he
      have hi : i ∉ used := hu i (by simp)
      refine ne_nil_of_mem (a := [e]) (mem_flatMap.mpr ⟨(i, e), hm, ?_⟩)
      simp [hi, hd]
  case cons i e is he _ ih =>
    cases n
    case zero => simp at hl
    case succ n =>
      have ⟨hin, hn⟩ := nodup_cons.mp hn
      have ⟨hi, hu⟩ := forall_mem_cons.mp hu
      have hu' : ∀ j ∈ is, j ∉ i :: used := by
        intro j hj
        have hji : j ≠ i := fun h => hin (h ▸ hj)
        simp [hji, hu j hj]
      have hne := ih hn hu' (Nat.le_of_succ_le_succ hl)
      have ⟨es, hes⟩ := exists_mem_of_ne_nil _ hne
      have hm := mem_outgoing (hg e (Array.mem_of_getElem? he)) he
      refine ne_nil_of_mem (a := e :: es) (mem_flatMap.mpr ⟨(i, e), hm, ?_⟩)
      simp [hi, hes]

theorem nameOf_inj_of_nodup {u : Nat} (hd : (g.nodes.toList.map (·.name)).Nodup)
    (hu : g.nameOf u = some a) (hv : g.nameOf v = some a) : u = v := by
  have hn : ∀ i, (g.nodes.toList.map (·.name))[i]? = g.nameOf i := by simp [nameOf]
  rw [← hn] at hu hv
  obtain ⟨hlt, _⟩ := List.getElem?_eq_some_iff.mp hu
  exact (getElem?_inj hlt hd).mp (hu.trans hv.symm)

theorem nameOf_iff : v ∈ g.numbersOf a ↔ g.nameOf v = some a := by
  simp only [numbersOf, mem_filter, mem_range, nameOf]
  by_cases hv : v < g.nodes.size <;> simp [hv]

theorem exists_walk (hi : ∀ u v x, g.nameOf u = some x → g.nameOf v = some x → u = v)
    (h : Relation.TransGen g.Step a b) : ∃ v is, g.nameOf v = some a ∧ Walk g b v is := by
  induction h using Relation.TransGen.head_induction_on
  case single h =>
    have ⟨e, he, hs, ht⟩ := h
    have ⟨i, hi⟩ := Array.getElem?_of_mem he
    exact ⟨e.source, [i], hs, .single hi ht⟩
  case head h _ ih =>
    have ⟨e, he, hs, ht⟩ := h
    have ⟨i, hie⟩ := Array.getElem?_of_mem he
    have ⟨v, is, hv, hw⟩ := ih
    obtain rfl := hi _ _ _ ht hv
    exact ⟨e.source, i :: is, hs, .cons hie hw⟩

theorem Trail.exists_source (h : g.Trail dest v es) : ∃ e ∈ g.edges, e.source = v := by
  induction h
  case single he _ => exact ⟨_, he, rfl⟩
  case cons he _ _ => exact ⟨_, he, rfl⟩

theorem Trail.transGen (h : g.Trail dest v es) (hs : ∀ e ∈ g.edges, e.source < g.nodes.size)
    (ha : g.nameOf v = some a) :
    Relation.TransGen g.Step a dest := by
  induction h generalizing a
  case single e he hd => exact .single ⟨e, he, ha, hd⟩
  case cons e es he h ih =>
    have ⟨e', he', hse⟩ := h.exists_source
    have ⟨x, hx⟩ : ∃ x, g.nameOf e.target = some x := by
      simp [nameOf, ← hse, hs e' he']
    exact .head ⟨e, he, ha, hx⟩ (ih hx)

theorem trails_ne_nil_iff (hs : ∀ e ∈ g.edges, e.source < g.nodes.size)
    (hi : ∀ u v x, g.nameOf u = some x → g.nameOf v = some x → u = v) :
    g.trails a b ≠ [] ↔ Relation.TransGen g.Step a b := by
  constructor
  · intro h
    have ⟨es, hes⟩ := exists_mem_of_ne_nil _ h
    have ⟨v, hv, ht⟩ := trail_of_mem_trails hes
    exact ht.transGen hs hv
  · intro h
    have ⟨v, is, hv, hw⟩ := exists_walk hi h
    have ⟨js, hw, hn⟩ := hw.exists_nodup
    have hne : g.trailsFrom g.outgoing b g.edges.size [] v ≠ [] :=
      trailsFrom_ne_nil hs hw hn (by simp) (hw.length_le hn)
    have ⟨es, hes⟩ := exists_mem_of_ne_nil _ hne
    exact ne_nil_of_mem (mem_flatMap.mpr ⟨v, nameOf_iff.mpr hv, hes⟩)

end Graph
end Inquiry
