import Mathlib
import Inquiry.Proofs.Session.Knowing

/-!
What an action passes on from one state of a session to another one, also when it fails. What is
recalled from a graph passes on whatever is passed on when the kind of a single node or edge is
recalled.
-/

namespace Inquiry

open List

theorem Graph.Trail.mem {g : Graph} {dest : String} {v : Nat} {es : List Edge} {e : Edge}
    (h : g.Trail dest v es) (he : e ∈ es) : e ∈ g.edges := by
  induction h
  case single hm _  => exact mem_singleton.mp he ▸ hm
  case cons hm _ ih =>
    obtain rfl | he := mem_cons.mp he
    · exact hm
    · exact ih he

def Session.Met (s : Session) (k : Term) : Prop :=
  ∃ name : String, s.known[name]? = some k

namespace SessionM

open Session

-- Whatever comes of the action in `s`, the session keeps a property and the new state is related to
-- the old one; what the action gives is right in the new state.
def Passes (I : Session → Prop) (R : Session → Session → Prop) (x : SessionM α) (s : Session)
    (Q : Session → α → Prop) : Prop :=
  I (x.runIn s).2 ∧ R s (x.runIn s).2 ∧ ∀ a, (x.runIn s).1 = .ok a → Q (x.runIn s).2 a

section Passes

variable {I : Session → Prop} {R R' : Session → Session → Prop} {s s' : Session} {x : SessionM α}
  {f : α → SessionM β} {Q Q' : Session → α → Prop} {T : Session → β → Prop} {a : α}

theorem Passes.of_gives (h : x.Gives s a s') (hi : I s') (hr : R s s') (hq : Q s' a) :
    x.Passes I R s Q := by
  rw [Passes, h]
  exact ⟨hi, hr, fun b hb => Except.ok.inj hb ▸ hq⟩

theorem Passes.gives (h : x.Passes I R s Q) (hx : x.Gives s a s') : I s' ∧ R s s' ∧ Q s' a := by
  rw [Passes, hx] at h
  exact ⟨h.1, h.2.1, h.2.2 a rfl⟩

theorem passes_pure [Std.Refl R] (hi : I s) (hq : Q s a) : (pure a : SessionM α).Passes I R s Q :=
  .of_gives gives_done hi (Std.Refl.refl s) hq

theorem passes_get [Std.Refl R] (hi : I s) :
    (get : SessionM Session).Passes I R s fun t u => s = t ∧ s = u :=
  .of_gives (gives_get.mpr ⟨rfl, rfl⟩) hi (Std.Refl.refl s) ⟨rfl, rfl⟩

theorem passes_throw [Std.Refl R] {e : Failure} (hi : I s) :
    (throw e : SessionM α).Passes I R s Q :=
  ⟨hi, Std.Refl.refl s, fun _ h => nomatch h⟩

theorem passes_ofExcept [Std.Refl R] {e : Except Failure α} (hi : I s)
    (hq : ∀ a, e = .ok a → Q s a) : (ofExcept e : SessionM α).Passes I R s Q := by
  cases e
  case ok a    => exact passes_pure hi (hq a rfl)
  case error e => exact passes_throw hi

theorem Passes.bind [IsTrans Session R] (h : x.Passes I R s Q)
    (hf : ∀ a s', I s' → R s s' → Q s' a → (f a).Passes I R s' T) : (x >>= f).Passes I R s T := by
  have ⟨hi, hr, hq⟩ := h
  rw [Passes, runIn_bind]
  generalize x.runIn s = r at hi hr hq
  match r with
  | (.ok a, s') =>
    have ⟨hi', hr', ht⟩ := hf a s' hi hr (hq a rfl)
    exact ⟨hi', IsTrans.trans _ _ _ hr hr', ht⟩
  | (.error e, s') => exact ⟨hi, hr, by simp⟩

theorem Passes.imp (h : x.Passes I R s Q) (hq : ∀ s' a, I s' → R s s' → Q s' a → Q' s' a) :
    x.Passes I R s Q' :=
  ⟨h.1, h.2.1, fun a ha => hq _ a h.1 h.2.1 (h.2.2 a ha)⟩

theorem Passes.weaken (h : x.Passes I R s Q) (hr : ∀ {s'}, R s s' → R' s s') :
    x.Passes I R' s fun s' a => R s s' ∧ Q s' a :=
  ⟨h.1, hr h.2.1, fun a ha => ⟨h.2.1, h.2.2 a ha⟩⟩

theorem passes_mapM_forall₂ [Std.Refl R] [IsTrans Session R] {as : List α}
    {T : Session → α → β → Prop} (hs : I s) (hT : ∀ s s' a b, R s s' → T s a b → T s' a b)
    (h : ∀ a ∈ as, ∀ s', I s' → R s s' → (f a).Passes I R s' (T · a ·)) :
    (as.mapM f).Passes I R s fun s' bs => Forall₂ (T s') as bs := by
  induction as generalizing s
  case nil => exact passes_pure hs .nil
  case cons a as ih =>
    rw [mapM_cons]
    refine (h a (by simp) s hs (Std.Refl.refl s)).bind fun b s₁ hs₁ hr₁ hb => ?_
    refine (ih hs₁ fun a' ha' s' hs' hr' => ?_).bind ?_
    · exact h a' (by simp [ha']) s' hs' (IsTrans.trans _ _ _ hr₁ hr')
    intro bs s₂ hs₂ hr₂ hbs
    exact passes_pure hs₂ (.cons (hT s₁ s₂ a b hr₂ hb) hbs)

theorem passes_asKind [Std.Refl R] (t : Term) (hs : I s) :
    (asKind t).Passes I R s fun _ k => k = t := by
  rw [asKind.eq_def]
  split
  case h_1 | h_2 => exact passes_pure hs rfl
  case h_3       => exact passes_throw hs

end Passes

-- What recalling the kind of a single node or edge of the graph `g` passes on.
structure Recalling (g : Graph) (I : Session → Prop) (R : Session → Session → Prop) : Prop where
  graph : ∀ {s}, I s → s.graph = g
  known : ∀ {s s'}, R s s' → ∀ (name : String) (k : Term), s.known[name]? = some k →
    s'.known[name]? = some k
  node  : ∀ {s v}, I s → v ∈ g.nodes → (restore (.ofNode v)).Passes I R s fun s' k =>
    s'.known[v.name]? = some k
  edge  : ∀ {s e}, I s → e ∈ g.edges → (restore (.ofEdge e)).Passes I R s fun s' k =>
    s'.known[e.name]? = some k

namespace Recalling

variable {g : Graph} {I : Session → Prop} {R : Session → Session → Prop} [Std.Refl R]
  [IsTrans Session R] {s : Session} (h : Recalling g I R)
include h

theorem nodeKind (name : String) (hs : I s) : (nodeKind name).Passes I R s fun s' k =>
    s'.known[name]? = some k ∨ k = .nothing ∧ s = s' ∧ g.node? name = none := by
  refine (passes_get hs).bind ?_
  rintro _ _ _ _ ⟨rfl, rfl⟩
  rw [h.graph hs]
  cases hv : g.node? name
  case none   => exact passes_pure hs (.inr ⟨rfl, rfl, rfl⟩)
  case some v =>
    obtain rfl : v.name = name := by simpa using Array.find?_some hv
    exact (h.node hs (Array.mem_of_find?_eq_some hv)).imp fun _ _ _ _ => .inl

theorem edgeKind (name : String) (hs : I s) : (edgeKind name).Passes I R s fun s' k =>
    s'.known[name]? = some k ∨ k = .nothing ∧ s = s' ∧ g.edge? name = none := by
  refine (passes_get hs).bind ?_
  rintro _ _ _ _ ⟨rfl, rfl⟩
  rw [h.graph hs]
  cases he : g.edge? name
  case none   => exact passes_pure hs (.inr ⟨rfl, rfl, rfl⟩)
  case some e =>
    obtain rfl : e.name = name := by simpa using Array.find?_some he
    exact (h.edge hs (Array.mem_of_find?_eq_some he)).imp fun _ _ _ _ => .inl

theorem kindNamed (name : String) (hs : I s) : (kindNamed name).Passes I R s fun s' k =>
    s'.known[name]? = some k ∨ k = .nothing := by
  refine (passes_get hs).bind ?_
  rintro _ _ _ _ ⟨rfl, rfl⟩
  split
  case h_1 hk => exact passes_pure hs (.inl hk)
  case h_2 =>
    refine (passes_get hs).bind ?_
    rintro _ _ _ _ ⟨rfl, rfl⟩
    split
    · exact (h.nodeKind name hs).imp fun _ _ _ _ hk => hk.imp_right (·.left)
    · exact (h.edgeKind name hs).imp fun _ _ _ _ hk => hk.imp_right (·.left)

theorem kindOfSort (name sort : String) (hs : I s) : (kindOfSort name sort).Passes I R s
    fun s' k => s'.known[name]? = some k ∨ k = .nothing := by
  refine (passes_get hs).bind ?_
  rintro _ _ _ _ ⟨rfl, rfl⟩
  split
  case h_1 hk => exact passes_pure hs (.inl hk)
  case h_2 =>
    split
    case h_1 => exact passes_throw hs
    case h_2 =>
      split
      · exact (h.nodeKind name hs).imp fun _ _ _ _ hk => hk.imp_right (·.left)
      · exact (h.edgeKind name hs).imp fun _ _ _ _ hk => hk.imp_right (·.left)

theorem variableNamed (name : String) (hs : I s) :
    (SessionM.kindOfSort name "Variable").Passes I R s fun s' k => s'.known[name]? = some k ∨
      k = .nothing ∧ s'.known[name]? = none ∧ g.edge? name = none := by
  refine (passes_get hs).bind ?_
  rintro _ _ _ _ ⟨rfl, rfl⟩
  split
  case h_1 hk => exact passes_pure hs (.inl hk)
  case h_2 hk =>
    refine (h.edgeKind name hs).imp fun s' k _ _ h => h.imp_right ?_
    rintro ⟨rfl, rfl, he⟩
    exact ⟨rfl, Option.eq_none_iff_forall_ne_some.mpr hk, he⟩

theorem pathsNamed_trails (origin dest : String) (hs : I s) :
    (SessionM.pathsNamed origin dest).Passes I R s fun s' ps => Forall₂ (fun es p =>
      Forall₂ (fun (e : Edge) k => s'.known[e.name]? = some k) es p.reverse)
        (g.trails origin dest) ps := by
  refine (passes_get hs).bind ?_
  rintro _ _ _ _ ⟨rfl, rfl⟩
  rw [h.graph hs]
  have later {s s' : Session} {es : List Edge} {ks : List Term} (hr : R s s')
      (hk : Forall₂ (fun (e : Edge) k => s.known[e.name]? = some k) es ks) :
      Forall₂ (fun (e : Edge) k => s'.known[e.name]? = some k) es ks :=
    hk.imp fun (e : Edge) k => h.known hr e.name k
  refine passes_mapM_forall₂ hs (fun _ _ _ _ => later) fun es hes s' hs' hr => ?_
  obtain ⟨_, _, ht⟩ := Graph.trail_of_mem_trails hes
  refine (passes_mapM_forall₂ (T := fun s (e : Edge) k => s.known[e.name]? = some k) hs'
    (fun _ _ e k hr => h.known hr e.name k) fun e he s'' hs'' _ => ?_).bind
      fun ks s'' hs'' _ hks => passes_pure hs'' (by simpa using hks)
  exact h.edge hs'' (ht.mem he)

theorem pathsNamed (origin dest : String) (hs : I s) : (pathsNamed origin dest).Passes I R s
    fun s' ps => ∀ p ∈ ps, ∀ k ∈ p, s'.Met k := by
  refine (h.pathsNamed_trails origin dest hs).imp fun s' ps _ _ hps p hp k hk => ?_
  obtain ⟨es, _, hes⟩ := exists_of_mem_right hps hp
  obtain ⟨e, _, hk⟩ := exists_of_mem_right hes (mem_reverse.mpr hk)
  exact ⟨e.name, hk⟩

theorem paths (t u : Term) (hs : I s) : (paths t u).Passes I R s fun s' ps =>
    ∀ p ∈ ps, ∀ k ∈ p, s'.Met k := by
  rw [paths.eq_def]
  split
  case h_1 | h_2 => exact passes_pure hs (by simp)
  case h_3       => exact h.pathsNamed _ _ hs

theorem reaches (t u : Term) (hs : I s) : (reaches t u).Passes I R s fun _ _ => True :=
  (h.paths t u hs).bind fun _ _ hs' _ _ => passes_pure hs' trivial

theorem commonOrigin (t u choice : Term) {os : List Term} (hs : I s) :
    (commonOrigin t u os choice).Passes I R s fun _ k => k = choice ∨ k ∈ os := by
  induction os generalizing s choice
  case nil => exact passes_pure hs (.inl rfl)
  case cons o os ih =>
    have next (s : Session) (hs : I s) : (SessionM.commonOrigin t u os choice).Passes I R s
        fun _ k => k = choice ∨ k ∈ o :: os :=
      (ih choice hs).imp fun _ _ _ _ hk => hk.imp_right (mem_cons_of_mem o)
    have chosen (s : Session) (hs : I s) : (SessionM.commonOrigin t u os o).Passes I R s
        fun _ k => k = choice ∨ k ∈ o :: os :=
      (ih o hs).imp fun _ _ _ _ hk => .inr (by simpa using hk)
    rw [SessionM.commonOrigin]
    refine (h.reaches o t hs).bind fun b s hs _ _ => ?_
    split
    case isFalse => exact next s hs
    case isTrue =>
      refine (h.reaches o u hs).bind fun b s hs _ _ => ?_
      split
      case isFalse => exact next s hs
      case isTrue =>
        refine (h.reaches choice o hs).bind fun b s hs _ _ => ?_
        split
        case isTrue => exact chosen s hs
        case isFalse =>
          split
          · exact chosen s hs
          · exact next s hs

theorem origin (t u : Term) (hs : I s) : (origin t u).Passes I R s fun _ k =>
    k = .nothing ∨ k = t ∨ k = u ∨ ∃ s', R s s' ∧ k ∈ s'.objectTypes := by
  have left {s' : Session} (hs : I s') : (asKind t).Passes I R s' fun _ k =>
      k = .nothing ∨ k = t ∨ k = u ∨ ∃ s', R s s' ∧ k ∈ s'.objectTypes :=
    (passes_asKind t hs).imp fun _ _ _ _ hk => .inr (.inl hk)
  have right {s' : Session} (hs : I s') : (asKind u).Passes I R s' fun _ k =>
      k = .nothing ∨ k = t ∨ k = u ∨ ∃ s', R s s' ∧ k ∈ s'.objectTypes :=
    (passes_asKind u hs).imp fun _ _ _ _ hk => .inr (.inr (.inl hk))
  rw [origin.eq_def]
  split
  case h_1 => exact right hs
  case h_2 =>
    refine (h.reaches t u hs).bind fun b s₁ hs hr₁ _ => ?_
    split
    case isTrue => exact left hs
    case isFalse =>
      refine (h.reaches u t hs).bind fun b s₂ hs hr₂ _ => ?_
      split
      case isTrue => exact right hs
      case isFalse =>
        split
        case h_1 => exact left hs
        case h_2 =>
          split
          case isTrue => exact left hs
          case isFalse =>
            refine (passes_get hs).bind ?_
            rintro _ _ _ _ ⟨rfl, rfl⟩
            refine (h.commonOrigin t u .nothing hs).imp fun s' k _ _ hk => ?_
            exact hk.imp_right fun hk => .inr (.inr ⟨s₂, IsTrans.trans _ _ _ hr₁ hr₂, hk⟩)

end Recalling

end SessionM
end Inquiry
