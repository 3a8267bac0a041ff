import Mathlib
import Inquiry.Proofs.Session.OneKind
import Inquiry.Proofs.Session.Settling
import Inquiry.Proofs.Request.Steering
import Inquiry.Proofs.Term.Congruence

/-!
The variables that take the objects of a type together. They are looked up by the printed form of
the type, and whatever is asked for in a session, the one that is known under such a title goes from
a type of that printed form.
-/

namespace Inquiry

open Term KindClass SessionM

namespace Term

variable {n : Nat} {spec : KindSpec} {k d : Term}

theorem dom_ne_ok_of_makeType (h : makeType n spec = .ok k) : ¬k.dom = .ok d := by
  rw [makeType] at h
  replace h := eq_false_of_refused h fun a => by simp [bind_eq_ok]
  obtain ⟨_, _, h⟩ := bind_eq_ok.mp h
  obtain ⟨_, _, h⟩ := bind_eq_ok.mp h
  obtain rfl := pure_eq_ok.mp h
  simp [dom, typeArg, type?]

theorem Made.domain_eq {h : KindHead} {ty d? c? s : Option Term} (hm : Made n (.kind h ty d? c? s))
    (hd : (kind h ty d? c? s).dom = .ok d) : d? = some d := by
  obtain ⟨_, _, ts, _, hty, hi⟩ := typeArg_eq_ok.mp hd
  cases hm
  case type  => simp [type?] at hty
  case loose => simp [type?] at hty
  case built ha h₀ _ _ =>
    simp only [type?, Option.some.injEq] at hty
    subst hty
    simp only [args, Except.ok.injEq] at ha
    rw [← h₀, ← ha, hi]
  case between hf _ =>
    obtain ⟨_, rfl⟩ := form_eq_ok.mp hf
    simp only [type?, Option.some.injEq, app.injEq] at hty
    obtain ⟨_, _, rfl, _⟩ := hty
    simpa using hi

theorem dom_of_make (h : make n spec = .ok k) (hs : spec.constr = none) (hd : k.dom = .ok d) :
    spec.domain = some d ∨ spec.cls = .constant ∧ d = one := by
  have hm := (make_eq_ok h).left
  rw [make] at h
  split at h
  case h_1    => exact absurd hd (dom_ne_ok_of_makeType h)
  case h_2 hc =>
    obtain ⟨_, _, rfl⟩ := makeElement_shape h hs
    exact .inr ⟨hc, (Option.some.inj (hm.domain_eq hd)).symm⟩
  case h_3 =>
    split at h
    case isTrue  => exact absurd hd (dom_ne_ok_of_makeType h)
    case isFalse =>
      obtain ⟨_, _, rfl⟩ := makeElement_shape h hs
      exact .inl (hm.domain_eq hd)

theorem printed_of_make (h : make n spec = .ok k) (hs : spec.constr = none)
    (hn : spec.sortNumber = none) (ho : spec.cls = .one → spec.name = "1") :
    k.isKind ∧ k.printed = spec.name := by
  by_cases hc : spec.cls.isType
  case pos =>
    obtain ⟨k', hk, hcls, _, hname⟩ := make_type_shape n spec hc hs hn
    obtain rfl := Except.ok.inj (h.symm.trans hk)
    refine ⟨rfl, hname.trans ?_⟩
    split
    case isTrue h'  => exact (ho (hcls ▸ h')).symm
    case isFalse h' => rfl
  case neg =>
    obtain ⟨_, _, _, rfl, _⟩ := make_element_shape h (by simpa [isElement] using hc) hs
    exact ⟨rfl, rfl⟩

end Term

-- The names that the graph tells, each with its sort.
def Graph.labels (g : Graph) : List (String × String) :=
  g.nodes.toList.map (fun v => (v.name, v.sort)) ++
    g.edges.toList.flatMap fun e =>
      [(e.name, e.sort), (e.domain.name, e.domain.sort), (e.codomain.name, e.codomain.sort)]

-- No two types with a single member are told apart by a name that they do not print. An edge that
-- takes objects together goes from the type that it is named after, to the type with a single
-- member.
structure Graph.Gathers (g : Graph) : Prop where
  single   : ∀ x ∈ g.labels, ofLabel? x.2 = some .one → x.1 = "1"
  together : ∀ e ∈ g.edges, ∀ p, e.name = togetherTitle p → e.domain.name = p ∧
    e.codomain.name = "1" ∧ (ofLabel? e.sort = some .constant → p = "1")

theorem Graph.Gathers.single_node {g : Graph} {v : Node} (h : g.Gathers) (hv : v ∈ g.nodes)
    (hc : ofLabel? v.sort = some .one) : v.name = "1" :=
  h.single (v.name, v.sort)
    (List.mem_append_left _ (List.mem_map.mpr ⟨v, Array.mem_toList_iff.mpr hv, rfl⟩)) hc

theorem Graph.Gathers.single_edge {g : Graph} {e : Edge} {x : String × String} (h : g.Gathers)
    (he : e ∈ g.edges) (hc : ofLabel? x.2 = some .one) (hx : x ∈ [(e.name, e.sort),
      (e.domain.name, e.domain.sort), (e.codomain.name, e.codomain.sort)]) : x.1 = "1" :=
  h.single x
    (List.mem_append_right _ (List.mem_flatMap.mpr ⟨e, Array.mem_toList_iff.mpr he, hx⟩)) hc

namespace Session

variable {s s' : Session} {name : String} {k : Term}

structure Gathers (s : Session) : Prop where
  graph    : s.graph.Gathers
  one      : s.known["1"]? = some .one
  named    : ∀ (name : String) k, s.known[name]? = some k → k ≠ .nothing →
    k.isKind ∧ k.printed = name
  together : ∀ p k d, s.known[togetherTitle p]? = some k → k.dom = .ok d → d.printed = p

theorem Gathers.of_eq (hs : s.Gathers) (hk : s'.known = s.known) (hg : s'.graph = s.graph) :
    s'.Gathers :=
  ⟨hg ▸ hs.graph, hk ▸ hs.one, hk ▸ hs.named, hk ▸ hs.together⟩

theorem Gathers.numbered (hs : s.Gathers) : s.numbered.Gathers :=
  hs.of_eq rfl rfl

theorem Gathers.know (hs : s.Gathers) (hn : name ≠ "1")
    (hk : k ≠ .nothing → k.isKind ∧ k.printed = name)
    (hd : ∀ p d, name = togetherTitle p → k.dom = .ok d → d.printed = p) :
    (s.know name k).Gathers where
  graph := hs.graph
  one   := by rw [known_know_of_ne s k hn.symm, hs.one]
  named name' k' hk' := by
    by_cases he : name' = name
    case pos =>
      subst he
      obtain rfl : k = k' := by simpa [known_know] using hk'
      exact hk
    case neg => exact hs.named name' k' (known_know_of_ne s k he ▸ hk')
  together p k' d hk' := by
    by_cases he : togetherTitle p = name
    case pos =>
      subst he
      obtain rfl : k = k' := by simpa [known_know] using hk'
      exact hd p d rfl
    case neg => exact hs.together p k' d (known_know_of_ne s k he ▸ hk')

theorem Gathers.know_nothing (hs : s.Gathers) (hn : name ≠ "1") : (s.know name .nothing).Gathers :=
  hs.know hn (absurd rfl) fun _ _ _ h => by simp [dom, typeArg, type?] at h

-- What is recalled by a name prints as it, and is what was known by it before.
structure GoesBy (s : Session) (name : String) (k : Term) : Prop where
  printed : k ≠ .nothing → k.printed = name
  known   : ∀ d, s.known[name]? = some d → k = d

-- The kind of an edge that was not known goes from the type that its domain is named after.
def BeginsAsNamed (s : Session) (e : Edge) (k : Term) : Prop :=
  s.known[e.name]? = none → ∀ d d', s.known[e.domain.name]? = some d → k.dom = .ok d' →
    d' = d ∨ ofLabel? e.sort = some .constant ∧ d' = .one

-- A later state in which the titles are right.
structure GathersSince (s₀ s : Session) : Prop where
  gathers : s.Gathers
  follows : s₀.Follows s

end Session

namespace SessionM

open Session

variable {s₀ : Session} {name : String}

theorem ne_one_of_unknown {s : Session} (hs : s.Gathers) (hu : s.known[name]? = none) :
    name ≠ "1" := by
  rintro rfl
  simp [hs.one] at hu

theorem keeps_know_nothing (hn : name ≠ "1") (hu : s₀.known[name]? = none) :
    Keeps s₀.GathersSince (do know name .nothing; return nothing) fun k =>
      k = .nothing :=
  (keeps_modify fun _ hs => ⟨hs.gathers.know_nothing hn, hs.follows.know hu _⟩).bind fun _ _ =>
    keeps_pure rfl

theorem keeps_know_new {spec : KindSpec} (hn : name ≠ "1") (hu : s₀.known[name]? = none)
    (hname : spec.name = name) (hs : spec.constr = none) (hsn : spec.sortNumber = none)
    (ho : spec.cls = .one → name = "1")
    (hd : ∀ p d, name = togetherTitle p → spec.domain = some d ∨ spec.cls = .constant ∧ d = .one →
      d.printed = p) :
    Keeps s₀.GathersSince (do let k ← make spec; know name k; return k) fun k =>
      k.printed = name ∧
        ∀ d, k.dom = .ok d → spec.domain = some d ∨ spec.cls = .constant ∧ d = .one := by
  have hnum (s : Session) (h : s₀.GathersSince s) : s₀.GathersSince s.numbered :=
    ⟨h.gathers.numbered, h.follows.numbered⟩
  refine (keeps_made hnum spec).bind fun k ⟨n, hk⟩ => ?_
  have hdom {d : Term} (h : k.dom = .ok d) := dom_of_make hk hs h
  have hprinted := printed_of_make hk hs hsn fun h => hname.trans (ho h)
  refine (keeps_modify fun s hs => ⟨hs.gathers.know hn ?_ ?_, hs.follows.know hu k⟩).bind fun _ _ =>
    keeps_pure ⟨hname ▸ hprinted.right, fun d => hdom⟩
  · exact fun _ => hname ▸ hprinted
  · exact fun p d hp h => hd p d hp (hdom h)

-- A node or the end of an edge. What was known by its name is given back.
theorem keeps_restore_bare {sort : String} (altname : Option String)
    (ho : ofLabel? sort = some .one → name = "1") :
    Keeps s₀.GathersSince
      (restore (.mk (some name) (some sort) altname none none (.error .noKey) (.error .noKey)))
        (s₀.GoesBy name) := by
  rw [restore.eq_def]
  refine keeps_get.bind fun s hs => ?_
  split
  case h_1 k hk =>
    refine keeps_pure ⟨fun hn => (hs.gathers.named name k hk hn).right, fun d hd => ?_⟩
    exact Option.some.inj (hk.symm.trans (hs.follows.known name d hd))
  case h_2 hk =>
    have hu : s.known[name]? = none := Option.eq_none_iff_forall_ne_some.mpr hk
    have hu₀ := hs.follows.unknown hu
    have hn := ne_one_of_unknown hs.gathers hu
    have missing : Keeps s₀.GathersSince (do know name .nothing; return nothing)
        (s₀.GoesBy name) :=
      (keeps_know_nothing hn hu₀).imp fun k hk => ⟨absurd hk, by simp [hu₀]⟩
    dsimp only
    split
    case h_1 => exact missing
    case h_2 c hc =>
      split
      case isTrue ht =>
        split
        case isTrue =>
          refine (keeps_know_new hn hu₀ rfl rfl rfl (fun h => ho (h ▸ hc)) ?_).imp ?_
          · rintro p d - (h | ⟨h, -⟩)
            case inl => cases h
            case inr => simp [show c = .constant from h, isType] at ht
          · exact fun k hk => ⟨fun _ => hk.left, by simp [hu₀]⟩
        case isFalse => exact missing
      case isFalse => exact keeps_throw.bind fun _ h => h

instance : Std.Refl Follows := ⟨Follows.refl⟩
instance : IsTrans Session Follows := ⟨fun _ _ _ => Follows.trans⟩

theorem Keeps.passes {x : SessionM α} {P : α → Prop} (h : Keeps s₀.GathersSince x P)
    (hs : s₀.Gathers) : x.Passes Gathers Follows s₀ fun _ => P := by
  have ⟨hs', hp⟩ := h s₀ ⟨hs, .refl s₀⟩
  exact ⟨hs'.gathers, hs'.follows, hp⟩

theorem passes_gathered_edge {e : Edge} (hs : s₀.Gathers) (he : e ∈ s₀.graph.edges) :
    (restore (.ofEdge e)).Passes Gathers Follows s₀ fun _ => s₀.BeginsAsNamed e := by
  rw [restore.eq_def]
  refine (passes_get hs).bind ?_
  rintro _ _ _ _ ⟨rfl, rfl⟩
  split
  case h_1 k hk => exact passes_pure hs fun hu => by simp [hu] at hk
  case h_2 hk =>
    have hg := hs.graph
    have hu : s₀.known[e.name]? = none := Option.eq_none_iff_forall_ne_some.mpr hk
    have hn := ne_one_of_unknown hs hu
    have missing : Keeps s₀.GathersSince (do know e.name .nothing; return nothing)
        (s₀.BeginsAsNamed e) :=
      (keeps_know_nothing hn hu).imp fun k hk _ d d' _ hd => by
        simp [hk, dom, typeArg, type?] at hd
    refine Keeps.passes ?_ hs
    dsimp only
    split
    case h_1 => exact missing
    case h_2 c hc =>
      have hone (h : c = .one) : e.name = "1" :=
        hg.single_edge (x := (e.name, e.sort)) he (h ▸ hc) (by simp)
      split
      case isTrue ht =>
        split
        case isTrue =>
          refine (keeps_know_new hn hu rfl rfl rfl hone ?_).imp ?_
          · rintro p d - (h | ⟨h, -⟩)
            case inl => cases h
            case inr => simp [show c = .constant from h, isType] at ht
          · rintro k ⟨-, hk⟩ _ d d' - hd
            obtain h | ⟨h, -⟩ := hk d' hd
            · cases h
            · simp [show c = .constant from h, isType] at ht
        case isFalse => exact missing
      case isFalse =>
        have bare {x : EndName} (hx : (x.name, x.sort) ∈ [(e.name, e.sort),
            (e.domain.name, e.domain.sort), (e.codomain.name, e.codomain.sort)]) :
            Keeps s₀.GathersSince (restore (.ofEnd x)) (s₀.GoesBy x.name) :=
          keeps_restore_bare none fun h => hg.single_edge he h hx
        refine (bare (x := e.domain) (by simp)).bind ?_
        rintro d ⟨hd, hd₀⟩
        refine (bare (x := e.codomain) (by simp)).bind fun c' _ => ?_
        split
        case isTrue =>
          refine (keeps_know_new hn hu rfl rfl rfl hone ?_).imp ?_
          · rintro p x hp (h | ⟨h, rfl⟩)
            case inl =>
              obtain ⟨rfl, hne⟩ := present_eq_some.mp h
              exact (hd hne).trans (hg.together e he p hp).left
            case inr => exact ((hg.together e he p hp).right.right (h ▸ hc)).symm
          · rintro k ⟨-, hk⟩ _ x x' hx hx'
            obtain h | ⟨h, rfl⟩ := hk x' hx'
            · exact .inl ((present_eq_some.mp h).left.symm.trans (hd₀ x hx))
            · exact .inr ⟨h ▸ hc, rfl⟩
        case isFalse => exact missing

structure GathersOn (g : Graph) (s : Session) : Prop where
  gathers : s.Gathers
  graph   : s.graph = g

variable {g : Graph}

theorem recalling_gathers (g : Graph) : Recalling g (GathersOn g) Follows where
  graph hs   := hs.graph
  known h    := h.known
  node {_ v} hs hv := by
    have ⟨hs', hf, _⟩ := (keeps_restore_bare v.altname
      (hs.gathers.graph.single_node (hs.graph ▸ hv))).passes hs.gathers
    exact ⟨⟨hs', hf.graph_eq.trans hs.graph⟩, hf, fun k hk => known_of_restore (Prod.ext hk rfl)⟩
  edge hs he := by
    have ⟨hs', hf, _⟩ := passes_gathered_edge hs.gathers (hs.graph ▸ he)
    exact ⟨⟨hs', hf.graph_eq.trans hs.graph⟩, hf, fun k hk => known_of_restore (Prod.ext hk rfl)⟩

theorem GathersOn.numbered (s : Session) (hs : GathersOn g s) : GathersOn g s.numbered :=
  ⟨hs.gathers.numbered, hs.graph⟩

theorem keeps_new_title {f : Term → SessionM α} {P : α → Prop} {title : String}
    {p? c? : Option Term} (hn : title ≠ "1")
    (ht : ∀ p d, title = togetherTitle p → p? = some d → d.printed = p)
    (hf : ∀ v, Keeps (GathersOn g) (f v) P) :
    Keeps (GathersOn g) (do
      let v ← make { cls := .variable, name := title, domain := p?, codomain := c? }
      know title v
      f v) P := by
  refine (keeps_made GathersOn.numbered _).bind ?_
  rintro v ⟨n, hv⟩
  refine (keeps_modify fun s hs => ⟨hs.gathers.know hn (fun _ => ?_) ?_, hs.graph⟩).bind
    fun _ _ => hf v
  · exact printed_of_make hv rfl rfl nofun
  · exact fun p d hp hd => ht p d hp ((dom_of_make hv rfl hd).resolve_right nofun)

theorem title_ne_one (p : String) : countingTitle p ≠ "1" ∧ togetherTitle p ≠ "1" :=
  have h : "1" ≠ countingTitle p ∧ "1" ≠ togetherTitle p := ne_title (by decide) p
  ⟨h.left.symm, h.right.symm⟩

theorem keeps_gathers_counting (p : Term) : Keeps (GathersOn g) (counting p) fun _ => True := by
  refine keeps_ofExcept.bind fun name _ => ?_
  refine (Keeps.of_passes fun s hs => (recalling_gathers g).kindOfSort _ _ hs).bind fun v _ => ?_
  split
  case h_1 =>
    refine keeps_get.bind fun s _ => keeps_new_title (title_ne_one name).left ?_ fun v => keeps_done
    exact fun q _ hq => absurd hq (countingTitle_ne_togetherTitle name q)
  case h_2 => exact keeps_done

theorem keeps_gathers_together (p : Term) : Keeps (GathersOn g) (together p) fun _ => True := by
  refine (Keeps.of_passes fun s hs => (recalling_gathers g).kindOfSort _ _ hs).bind fun v _ => ?_
  split
  case h_1 =>
    refine keeps_new_title (title_ne_one p.printed).right ?_
      fun v => keeps_make GathersOn.numbered _
    intro q d hq hd
    rw [← (present_eq_some.mp hd).left, togetherTitle_injective hq]
  case h_2 => exact keeps_done

theorem keeps_alignParts {I : Session → Prop} (hI : ∀ s, I s → I s.numbered) (us ts : List Term) :
    Keeps I (alignParts us ts) fun _ => True := by
  induction ts
  case nil => exact keeps_done
  case cons d ds ih =>
    rw [alignParts]
    refine .ite (fun _ => keeps_done) fun _ => ?_
    split
    case h_1 => exact keeps_done
    case h_2 =>
      refine (Keeps.ite (fun _ => keeps_done) fun _ => (keeps_app hI _ _).any).bind fun p _ => ?_
      refine ih.bind fun r _ => ?_
      split <;> exact keeps_done

theorem keeps_gathers_align (t u : Term) : Keeps (GathersOn g) (align t u) fun _ => True := by
  have joined (op : Op) (ts : List Term) : Keeps (GathersOn g) (joined op ts) fun _ => True :=
    (keeps_joined GathersOn.numbered op ts).any
  refine keeps_ofExcept.bind fun ts _ => keeps_ofExcept.bind fun us _ => ?_
  refine .ite (fun _ => keeps_done) fun _ => ?_
  refine (keeps_alignParts GathersOn.numbered us ts).bind fun r _ => ?_
  split
  case h_1 => exact keeps_done
  case h_2 =>
    exact (joined _ us).bind fun p _ => (keeps_gathers_together p).bind fun w _ => joined _ [t, w]
  case h_3 ps => exact (joined _ ps).bind fun p _ => joined _ [t, p]

end SessionM

namespace Session

open SessionM

-- The states that a session goes through: kinds are asked for, operations are applied and terms are
-- aligned, with or without success.
inductive Passed (s₀ : Session) : Session → Prop
  | start : Passed s₀ s₀
  | call {s} (c : Call) : Passed s₀ s → Passed s₀ (c.run.runIn s).2
  | app {s} (op : Op) (ts : List Term) : Passed s₀ s → Passed s₀ ((app op ts).runIn s).2
  | align {s} (t u : Term) : Passed s₀ s → Passed s₀ ((align t u).runIn s).2

theorem keeps_gathers_call {g : Graph} (c : Call) : Keeps (GathersOn g) c.run fun _ => True := by
  have h := recalling_gathers g
  cases c
  case kindNamed name =>
    exact (Keeps.of_passes fun s hs => h.kindNamed name hs).bind fun _ _ => keeps_done
  case kindOfSort name sort =>
    exact (Keeps.of_passes fun s hs => h.kindOfSort name sort hs).bind fun _ _ => keeps_done
  case paths t u =>
    exact (Keeps.of_passes fun s hs => h.paths t u hs).bind fun _ _ => keeps_done
  case origin t u =>
    exact (Keeps.of_passes fun s hs => h.origin t u hs).bind fun _ _ => keeps_done
  case counting p => exact (keeps_gathers_counting p).bind fun _ _ => keeps_done
  case together p => exact (keeps_gathers_together p).bind fun _ _ => keeps_done

theorem Gathers.passed {s₀ s : Session} (hs : s₀.Gathers) (h : Passed s₀ s) : s.Gathers := by
  have hs : GathersOn s₀.graph s := by
    induction h
    case start          => exact ⟨hs, rfl⟩
    case call c _ ih    => exact (keeps_gathers_call c _ ih).left
    case app op ts _ ih => exact (keeps_app GathersOn.numbered op ts _ ih).left
    case align t u _ ih => exact (keeps_gathers_align t u _ ih).left
  exact hs.gathers

-- Types that print like `d` are equal to it: those that a known kind goes from, and those that the
-- edges of the graph go from.
structure Distinguishes (s : Session) (d : Term) : Prop where
  known : ∀ (name : String) k d', s.known[name]? = some k → k.dom = .ok d' →
    d'.printed = d.printed → d'.equals d
  named : ∀ e ∈ s.graph.edges, e.domain.name = d.printed → s.known[d.printed]? = some d

theorem Distinguishes.of_eq {s s' : Session} {d : Term} (hd : s.Distinguishes d)
    (hk : s'.known = s.known) (hg : s'.graph = s.graph) : s'.Distinguishes d :=
  ⟨hk ▸ hd.known, hg ▸ hk ▸ hd.named⟩

end Session

namespace SessionM

open Session

variable {s s' : Session} {p d k w : Term}

theorem kindOfSort_distinguished (hs : s.Gathers) (hd : s.Distinguishes d) (hw : d.equals d)
    (h : (kindOfSort (togetherTitle d.printed) "Variable").Gives s k s') (hk : k ≠ .nothing) :
    k.isKind ∧ ∀ e, k.dom = .ok e → e.equals d := by
  rw [kindOfSort] at h
  replace h := gives_get_bind.mp h
  split at h
  case h_1 k' hk' =>
    obtain ⟨rfl, rfl⟩ := gives_pure.mp h
    refine ⟨(hs.named _ _ hk' hk).left, fun e he => ?_⟩
    exact hd.known _ k' e hk' he (hs.together _ k' e hk' he)
  case h_2 hu =>
    have hu : s.known[togetherTitle d.printed]? = none := Option.eq_none_iff_forall_ne_some.mpr hu
    change (edgeKind (togetherTitle d.printed)).Gives s k s' at h
    replace h := gives_get_bind.mp h
    split at h
    case h_2 => exact absurd (gives_pure.mp h).left.symm hk
    case h_1 e he =>
      have hm := Array.mem_of_find?_eq_some he
      have hn : e.name = togetherTitle d.printed := by simpa using Array.find?_some he
      obtain ⟨hdom, _, hc⟩ := hs.graph.together e hm _ hn
      have hd' := hd.named e hm hdom
      obtain ⟨hs', _, hq⟩ := (passes_gathered_edge hs hm).gives h
      refine ⟨(hs'.named _ k (known_of_restore h) hk).left, fun x hx => ?_⟩
      obtain rfl | ⟨hcon, rfl⟩ := hq (hn ▸ hu) d x (hdom ▸ hd') hx
      · exact hw
      · rw [hc hcon, hs.one] at hd'
        exact Option.some.inj hd' ▸ hw

theorem together_distinguished (hs : s.Gathers) (hd : s.Distinguishes d)
    (hp : p.printed = d.printed) (he : p.equals d) (h : (together p).Gives s w s') :
    w.isKind ∧ ∀ e, w.dom = .ok e → e.equals d := by
  rw [together, hp] at h
  obtain ⟨k, s₁, hk, h⟩ := gives_bind.mp h
  split at h
  case h_1 =>
    obtain ⟨v, s₂, _, h⟩ := gives_bind.mp h
    obtain ⟨_, s₃, _, h⟩ := gives_bind.mp h
    have ⟨hw, _⟩ := gives_make_iff.mp h
    refine ⟨(printed_of_make hw rfl rfl nofun).left, fun e hx => ?_⟩
    have hx := (dom_of_make hw rfl hx).resolve_right nofun
    exact (present_eq_some.mp hx).left ▸ he
  case h_2 hn =>
    obtain ⟨rfl, rfl⟩ := gives_pure.mp h
    exact kindOfSort_distinguished hs hd (equals_trans (equals_symm he) he) hk
      hn

end SessionM
end Inquiry
