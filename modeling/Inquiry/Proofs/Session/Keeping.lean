import Mathlib
import Inquiry.Proofs.Session.Passing

/-!
What stays true in a session, whatever is asked for and whether or not it succeeds. The graph stays
the same, under the name of a node only a type is known, and under the name of an edge only an
element between the types of its ends.
-/

namespace Inquiry

namespace Session

variable {s : Session} {name : String} {k : Term}

theorem Sound.numbered (hs : s.Sound) : s.numbered.Sound :=
  ⟨hs.graph, hs.one, hs.node, hs.edge⟩

theorem Sound.know (hs : s.Sound) (h : s.known[name]? = none)
    (hv : ∀ v ∈ s.graph.nodes, v.name = name → k.TypeKind)
    (he : ∀ e ∈ s.graph.edges, e.name = name → ∃ d c, s.known[e.domain.name]? = some d ∧
      s.known[e.codomain.name]? = some c ∧ k.ElementKind d c) : (s.know name k).Sound where
  graph := hs.graph
  one   := (Later.know h).known _ _ hs.one
  node v hm k' hk' := by
    by_cases hn : v.name = name
    case pos =>
      rw [hn, known_know] at hk'
      exact Option.some.inj hk' ▸ hv v hm hn
    case neg =>
      rw [known_know_of_ne s k hn] at hk'
      exact hs.node v hm k' hk'
  edge e hm k' hk' := by
    have ⟨d, c, hd, hc, hk⟩ : ∃ d c, s.known[e.domain.name]? = some d ∧
        s.known[e.codomain.name]? = some c ∧ k'.ElementKind d c := by
      by_cases hn : e.name = name
      case pos =>
        rw [hn, known_know] at hk'
        exact Option.some.inj hk' ▸ he e hm hn
      case neg =>
        rw [known_know_of_ne s k hn] at hk'
        exact hs.edge e hm k' hk'
    exact ⟨d, c, (Later.know h).known _ _ hd, (Later.know h).known _ _ hc, hk⟩

theorem Sound.know_other (hs : s.Sound) (ho : name ≠ "1") (hv : ∀ v ∈ s.graph.nodes, v.name ≠ name)
    (he : ∀ e ∈ s.graph.edges, e.name ≠ name) : (s.know name k).Sound where
  graph := hs.graph
  one   := by rw [known_know_of_ne s k ho.symm, hs.one]
  node v hm k' hk' := by
    rw [known_know_of_ne s k (hv v hm)] at hk'
    exact hs.node v hm k' hk'
  edge e hm k' hk' := by
    rw [known_know_of_ne s k (he e hm)] at hk'
    have ⟨d, c, hd, hc, hk⟩ := hs.edge e hm k' hk'
    have ⟨v, hvm, hvn⟩ := Graph.exists_node (hs.graph.source e hm).left
    have ⟨w, hwm, hwn⟩ := Graph.exists_node (hs.graph.target e hm).left
    refine ⟨d, c, ?_, ?_, hk⟩
    · rw [known_know_of_ne s k (hvn ▸ hv v hvm), hd]
    · rw [known_know_of_ne s k (hwn ▸ hv w hwm), hc]

structure SoundOn (g : Graph) (s : Session) : Prop where
  sound : s.Sound
  graph : s.graph = g

theorem SoundOn.of_eq {g : Graph} {s' : Session} (hs : SoundOn g s) (hg : s'.graph = s.graph)
    (hk : s'.known = s.known) : SoundOn g s' where
  sound :=
    ⟨hg ▸ hs.sound.graph, hk ▸ hs.sound.one, hg ▸ hk ▸ hs.sound.node, hg ▸ hk ▸ hs.sound.edge⟩
  graph := hg.trans hs.graph

theorem SoundOn.kept (g : Graph) : Kept (SoundOn g) where
  sound hs    := hs.sound
  numbered hs := ⟨hs.sound.numbered, hs.graph⟩
  node hs hv hk _ h := by
    refine ⟨hs.sound.numbered.know h (fun _ _ _ => hk) fun e he hn => ?_, hs.graph⟩
    exact absurd hn.symm (hs.sound.graph.name_ne hv he)
  edge hs he hd hc hk _ h := by
    refine ⟨hs.sound.numbered.know h (fun v hv hn => ?_) fun e' he' hn => ?_, hs.graph⟩
    · exact absurd hn (hs.sound.graph.name_ne hv he)
    · exact hs.sound.graph.edge_eq he he' hn.symm ▸ ⟨_, _, hd, hc, hk⟩

end Session

namespace SessionM

open Session

-- Whatever comes of the action, the session keeps a property; what the action gives has another.
def Keeps (I : Session → Prop) (x : SessionM α) (P : α → Prop) : Prop :=
  ∀ s, I s → I (x.runIn s).2 ∧ ∀ a, (x.runIn s).1 = .ok a → P a

section Keeps

variable {I : Session → Prop} {x y : SessionM α} {f : α → SessionM β} {P : α → Prop} {Q : β → Prop}
  {as : List α} {a : α}

theorem Keeps.bind (h : Keeps I x P) (hf : ∀ a, P a → Keeps I (f a) Q) : Keeps I (x >>= f) Q := by
  intro s hs
  have ⟨hk, hp⟩ := h s hs
  rw [runIn_bind]
  generalize x.runIn s = r at hk hp
  match r with
  | (.ok a, s')    => exact hf a (hp a rfl) s' hk
  | (.error e, s') => exact ⟨hk, by simp⟩

theorem Keeps.imp {P' : α → Prop} (h : Keeps I x P) (hp : ∀ a, P a → P' a) : Keeps I x P' :=
  fun s hs => ⟨(h s hs).left, fun a ha => hp a ((h s hs).right a ha)⟩

theorem Keeps.of_gives (h : ∀ s, I s → ∃ a s', x.Gives s a s' ∧ I s' ∧ P a) : Keeps I x P := by
  intro s hs
  have ⟨a, s', hx, hs', ha⟩ := h s hs
  rw [hx]
  exact ⟨hs', fun b hb => Except.ok.inj hb ▸ ha⟩

theorem Keeps.gives {s s' : Session} (h : Keeps I x P) (hs : I s) (hx : x.Gives s a s') : I s' := by
  have ⟨hk, _⟩ := h s hs
  rwa [hx] at hk

theorem keeps_pure (h : P a) : Keeps I (pure a) P :=
  .of_gives fun s hs => ⟨a, s, gives_done, hs, h⟩

theorem keeps_get : Keeps I get I :=
  .of_gives fun s hs => ⟨s, s, gives_get.mpr ⟨rfl, rfl⟩, hs, hs⟩

theorem keeps_modify {g : Session → Session} (h : ∀ s, I s → I (g s)) :
    Keeps I (modify g) fun _ => True :=
  .of_gives fun s hs => ⟨⟨⟩, g s, gives_modify.mpr rfl, h s hs, trivial⟩

theorem keeps_throw {e : Failure} : Keeps I (throw e) P :=
  fun _ hs => ⟨hs, fun _ ha => nomatch ha⟩

theorem keeps_done : Keeps I (pure a) fun _ => True :=
  keeps_pure trivial

theorem keeps_outcome {e : Except Failure α} (h : ∀ a, e = .ok a → P a) :
    Keeps I (ofExcept e) P := by
  cases e
  case ok a    => exact keeps_pure (h a rfl)
  case error e => exact keeps_throw

theorem keeps_ofExcept {e : Except Failure α} : Keeps I (ofExcept e) fun _ => True :=
  keeps_outcome fun _ _ => trivial

theorem Keeps.any (h : Keeps I x P) : Keeps I x fun _ => True :=
  h.imp fun _ _ => trivial

theorem Keeps.map {g : α → β} (h : Keeps I x P) (hg : ∀ a, P a → Q (g a)) :
    Keeps I (g <$> x) Q := by
  rw [map_eq_pure_bind]
  exact h.bind fun a ha => keeps_pure (hg a ha)

theorem Keeps.ite {p : Prop} [Decidable p] (hx : p → Keeps I x P) (hy : ¬p → Keeps I y P) :
    Keeps I (if p then x else y) P := by
  split
  case isTrue h  => exact hx h
  case isFalse h => exact hy h

theorem Keeps.bind_ite {p : Prop} [Decidable p] (h : Keeps I (if p then x else y) P)
    (hf : ∀ a, P a → Keeps I (f a) Q) : Keeps I (if p then x >>= f else y >>= f) Q := by
  by_cases hp : p
  all_goals
    simp only [hp, if_true, if_false] at h ⊢
    exact h.bind hf

theorem Keeps.ite_or {b : Bool} {z : SessionM Bool} (hz : Keeps I z fun _ => True)
    (hx : Keeps I x P) (hy : Keeps I y P) :
    Keeps I (if b then x else z >>= fun c => if c then x else y) P :=
  .ite (fun _ => hx) fun _ => hz.bind fun _ _ => .ite (fun _ => hx) fun _ => hy

theorem keeps_mapM_forall₂ {R : α → β → Prop} (h : ∀ a ∈ as, Keeps I (f a) (R a)) :
    Keeps I (as.mapM f) (List.Forall₂ R as) := by
  induction as
  case nil => exact keeps_pure .nil
  case cons a as ih =>
    rw [List.mapM_cons]
    have ⟨ha, has⟩ := List.forall_mem_cons.mp h
    exact ha.bind fun _ hb => (ih has).bind fun _ hbs => keeps_pure (.cons hb hbs)

theorem keeps_mapM (h : ∀ a ∈ as, Keeps I (f a) fun _ => True) :
    Keeps I (as.mapM f) fun _ => True :=
  (keeps_mapM_forall₂ h).any

theorem keeps_foldlM_of {f : β → α → SessionM β} {b : β} (hb : Q b)
    (h : ∀ b, ∀ a ∈ as, Q b → Keeps I (f b a) Q) : Keeps I (as.foldlM f b) Q := by
  induction as generalizing b
  case nil => exact keeps_pure hb
  case cons a as ih =>
    rw [List.foldlM_cons]
    exact (h b a (by simp) hb).bind fun b' hb' => ih hb' fun b a ha => h b a (by simp [ha])

theorem keeps_foldlM {f : β → α → SessionM β} {b : β}
    (h : ∀ b, ∀ a ∈ as, Keeps I (f b a) fun _ => True) : Keeps I (as.foldlM f b) fun _ => True :=
  keeps_foldlM_of trivial fun b a ha _ => h b a ha

theorem keeps_filterM {f : α → SessionM Bool} (h : ∀ a, Keeps I (f a) fun _ => True) :
    Keeps I (as.filterM f) fun _ => True := by
  have aux (acc : List α) : Keeps I (as.filterAuxM f acc) fun _ => True := by
    induction as generalizing acc
    case nil => exact keeps_done
    case cons a as ih => exact (h a).bind fun _ _ => ih _
  exact (aux []).bind fun _ _ => keeps_done

theorem Keeps.tryCatch {handle : Failure → SessionM α} (h : Keeps I x P)
    (hh : ∀ e, Keeps I (handle e) P) : Keeps I (tryCatch x handle) P := by
  intro s hs
  have hx := h s hs
  rw [runIn_tryCatch]
  generalize x.runIn s = r at hx
  match r with
  | (.ok a, s')    => exact hx
  | (.error e, s') => exact hh e s' hx.1

theorem Keeps.of_passes {R : Session → Session → Prop} {T : Session → Session → α → Prop}
    (h : ∀ s, I s → x.Passes I R s (T s)) : Keeps I x fun _ => True :=
  fun s hs => ⟨(h s hs).left, fun _ _ => trivial⟩

-- Recalling a kind keeps what making a kind of a name keeps, where the name was not known before.
theorem keeps_restore_of
    (missing : ∀ s name, I s → s.known[name]? = none →
      Keeps I (do SessionM.know name .nothing; return Term.nothing) fun _ => True)
    (new : ∀ s name spec, I s → s.known[name]? = none →
      Keeps I (do let k ← make spec; SessionM.know name k; return k) fun _ => True) :
    (e : Record) → Keeps I (restore e) fun _ => True
  | .mk name? sort? altname article code domain codomain => by
    have ending (e : Except Failure Record)
        (h : ∀ e', e = .ok e' → Keeps I (restore e') fun _ => True) :
        Keeps I (restore.recallEnd e) fun _ => True := by
      cases e
      case ok e    => exact h e rfl
      case error f => exact keeps_throw
    have hd := ending domain fun e _ => keeps_restore_of missing new e
    have hc := ending codomain fun e _ => keeps_restore_of missing new e
    rw [restore.eq_def]
    dsimp only
    cases name?
    case none => exact keeps_throw
    case some name =>
      refine keeps_get.bind fun s hs => ?_
      split
      case h_1 => exact keeps_done
      case h_2 hn =>
        have hu : s.known[name]? = none := Option.eq_none_iff_forall_ne_some.mpr hn
        cases sort?
        case none => exact keeps_throw
        case some sort =>
          dsimp only
          split
          · exact missing s name hs hu
          · split
            · split
              · exact new s name _ hs hu
              · exact missing s name hs hu
            · refine hd.bind fun _ _ => hc.bind fun _ _ => ?_
              split
              · exact new s name _ hs hu
              · exact missing s name hs hu

end Keeps

section Actions

variable {I : Session → Prop} (hI : ∀ s, I s → I s.numbered)
include hI

theorem keeps_serials : Keeps I (serials Op.serials) fun _ => True :=
  .of_gives fun s hs => ⟨s.next, s.numbered, gives_modifyGet.mpr rfl, hI s hs, trivial⟩

theorem keeps_made (spec : KindSpec) :
    Keeps I (make spec) fun k => ∃ n, Term.make n spec = .ok k :=
  (keeps_serials hI).bind fun n _ => keeps_outcome fun _ hk => ⟨n, hk⟩

theorem keeps_make (spec : KindSpec) : Keeps I (make spec) fun _ => True :=
  (keeps_made hI spec).any

theorem keeps_app (op : Op) (args : List Term) :
    Keeps I (app op args) fun t => ∃ n, Term.apply n op args = .ok t :=
  (keeps_serials hI).bind fun n _ => keeps_outcome fun _ ht => ⟨n, ht⟩

end Actions

section Recalling

variable {g : Graph}

theorem restore_node_of_mem {I : Session → Prop} (hI : Kept I) {s : Session} {v : Node} (hs : I s)
    (hv : v ∈ s.graph.nodes) :
    ∃ k s', (restore (.ofNode v)).Gives s k s' ∧ s.Recalled I s' v.name k := by
  obtain ⟨i, hi⟩ := Array.getElem?_of_mem hv
  have hn : s.graph.nameOf i = some v.name := by simp [Graph.nameOf, hi]
  obtain ⟨k, s', hk, hr, _⟩ := restore_node hI v.altname hs hn ((hI.sound hs).graph.types v hv)
  exact ⟨k, s', hk, hr⟩

instance : Std.Refl Later := ⟨Later.refl⟩
instance : IsTrans Session Later := ⟨fun _ _ _ => Later.trans⟩

theorem recalling_of_kept {I : Session → Prop} (hI : Kept I) (hg : ∀ {s}, I s → s.graph = g) :
    Recalling g I Later where
  graph hs    := hg hs
  known hl    := hl.known
  node hs hv  := by
    obtain ⟨k, s', hk, hr⟩ := restore_node_of_mem hI hs (hg hs ▸ hv)
    exact .of_gives hk hr.kept hr.later hr.known
  edge hs he  := by
    obtain ⟨k, s', hk, hr⟩ := restore_edge hI hs (hg hs ▸ he)
    exact .of_gives hk hr.kept hr.later hr.known

theorem SoundOn.recalling (g : Graph) : Recalling g (SoundOn g) Later :=
  recalling_of_kept (SoundOn.kept g) fun hs => hs.graph

theorem keeps_restore_node {v : Node} (hv : v ∈ g.nodes) :
    Keeps (SoundOn g) (restore (.ofNode v)) fun _ => True :=
  .of_passes fun _ hs => (SoundOn.recalling g).node hs hv

theorem keeps_kindNamed (name : String) : Keeps (SoundOn g) (kindNamed name) fun _ => True :=
  .of_passes fun _ hs => (SoundOn.recalling g).kindNamed name hs

theorem keeps_kindOfSort (name sort : String) :
    Keeps (SoundOn g) (kindOfSort name sort) fun _ => True :=
  .of_passes fun _ hs => (SoundOn.recalling g).kindOfSort name sort hs

theorem keeps_kindOfSort_variable (name : String) : Keeps (SoundOn g) (kindOfSort name "Variable")
    fun k => k = .nothing → ∀ e ∈ g.edges, e.name ≠ name := by
  intro s hs
  have ⟨hs', _, hk⟩ := (SoundOn.recalling g).variableNamed name hs
  refine ⟨hs', fun k h hn e he hne => ?_⟩
  obtain hk | ⟨_, _, hk⟩ := hk k h
  · obtain ⟨_, _, _, _, ⟨_, _, _, hk, _⟩, _⟩ := hs'.sound.edge e (hs'.graph ▸ he) k (hne ▸ hk)
    simp [hn] at hk
  · simpa [hne] using Array.find?_eq_none.mp hk e he

end Recalling

end SessionM
end Inquiry
