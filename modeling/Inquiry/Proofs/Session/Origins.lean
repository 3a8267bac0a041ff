import Mathlib
import Inquiry.Proofs.Agree
import Inquiry.Proofs.Session.OneKind

/-!
Where two object types come from: one of them, or a lowest one among the object types that reach
both. These are looked at once, in any order, and cycles do no harm, as each choice is reached from
the one before it.
-/

namespace Inquiry

open List

namespace Graph

def Reaches (g : Graph) (a b : String) : Prop :=
  g.trails a b ≠ []

variable {g : Graph} {a b c : String}

theorem Reaches.trans (hs : ∀ e ∈ g.edges, e.source < g.nodes.size)
    (hd : (g.nodes.toList.map (·.name)).Nodup) (hab : g.Reaches a b) (hbc : g.Reaches b c) :
    g.Reaches a c := by
  have hi u v x := nameOf_inj_of_nodup (g := g) (u := u) (v := v) (a := x) hd
  have hab := (trails_ne_nil_iff hs hi).mp hab
  exact (trails_ne_nil_iff hs hi).mpr (hab.trans ((trails_ne_nil_iff hs hi).mp hbc))

theorem Joined.source_lt (h : g.Joined) : ∀ e ∈ g.edges, e.source < g.nodes.size := by
  intro e he
  have hn := (h e he).left
  by_contra hlt
  simp [nameOf, hlt] at hn

end Graph

theorem Model.Distinct.reaches_trans {m : Model} (h : m.Distinct) {a b c : String}
    (hab : m.graph.Reaches a b) (hbc : m.graph.Reaches b c) : m.graph.Reaches a c :=
  hab.trans m.joined_graph.source_lt (nodup_append.mp h.graph.distinct).left hbc

-- What is found when some object types have been looked at: nothing if none of them reaches both
-- terms, and else one that does and has no other one strictly below it.
inductive LowestAmong (g : Graph) (t u : Term) (os : List Term) : Term → Prop
  | nothing : (∀ o ∈ os, g.Reaches o.printed t.printed → ¬g.Reaches o.printed u.printed) →
    LowestAmong g t u os .nothing
  | found {x} : x ∈ os → (g.Reaches x.printed t.printed) → (g.Reaches x.printed u.printed) →
    (∀ o ∈ os, g.Reaches o.printed t.printed → g.Reaches o.printed u.printed →
      g.Reaches x.printed o.printed → o = x ∨ g.Reaches o.printed x.printed) →
    LowestAmong g t u os x

namespace LowestAmong

variable {g : Graph} {t u x o : Term} {os : List Term}

theorem append_of_not (h : LowestAmong g t u os x)
    (ho : g.Reaches o.printed t.printed → ¬g.Reaches o.printed u.printed) :
    LowestAmong g t u (os ++ [o]) x := by
  cases h
  case nothing hn =>
    refine .nothing fun o' ho' => ?_
    cases mem_append.mp ho'
    case inl ho' => exact hn o' ho'
    case inr ho' => exact mem_singleton.mp ho' ▸ ho
  case found hx ht hu hl =>
    refine .found (by simp [hx]) ht hu fun o' ho' ht' hu' => ?_
    cases mem_append.mp ho'
    case inl ho' => exact hl o' ho' ht' hu'
    case inr ho' =>
      obtain rfl := mem_singleton.mp ho'
      exact absurd hu' (ho ht')

theorem append_first (h : LowestAmong g t u os .nothing) (ht : g.Reaches o.printed t.printed)
    (hu : g.Reaches o.printed u.printed) (hn : ∀ o ∈ os, o ≠ .nothing) :
    LowestAmong g t u (os ++ [o]) o := by
  refine .found (by simp) ht hu fun o' ho' ht' hu' _ => ?_
  cases mem_append.mp ho'
  case inr ho' => exact .inl (mem_singleton.mp ho')
  case inl ho' =>
    cases h
    case nothing hn      => exact absurd hu' (hn o' ho' ht')
    case found hx _ _ _  => exact absurd rfl (hn _ hx)

theorem append_beside (h : LowestAmong g t u os x) (hx : x ≠ .nothing)
    (ho : ¬g.Reaches x.printed o.printed) : LowestAmong g t u (os ++ [o]) x := by
  cases h
  case nothing => exact absurd rfl hx
  case found hx ht hu hl =>
    refine .found (by simp [hx]) ht hu fun o' ho' ht' hu' hxo => ?_
    cases mem_append.mp ho'
    case inl ho' => exact hl o' ho' ht' hu' hxo
    case inr ho' => exact absurd (mem_singleton.mp ho' ▸ hxo) ho

-- What is below the new choice was below the former one, which leads to the new one.
theorem append_below (trans : ∀ {a b c}, g.Reaches a b → g.Reaches b c → g.Reaches a c)
    (h : LowestAmong g t u os x) (hx : x ≠ .nothing) (hxo : g.Reaches x.printed o.printed)
    (ht : g.Reaches o.printed t.printed) (hu : g.Reaches o.printed u.printed) :
    LowestAmong g t u (os ++ [o]) o := by
  cases h
  case nothing => exact absurd rfl hx
  case found _ _ _ hl =>
    refine .found (by simp) ht hu fun o' ho' ht' hu' hoo => ?_
    cases mem_append.mp ho'
    case inr ho' => exact .inl (mem_singleton.mp ho')
    case inl ho' =>
      cases hl o' ho' ht' hu' (trans hxo hoo)
      case inl he => exact .inr (he ▸ hxo)
      case inr hr => exact .inr (trans hr hxo)

end LowestAmong

namespace SessionM

open Session

variable {m : Model} {s₀ s s' : Session} {t u x o : Term}

theorem Reached.recalls (hm : m.Distinct) (hs : Named m.graph m.graph.Tells s₀) (h : Reached s₀ s) :
    Named m.graph m.graph.Tells s ∧ s₀.Recalls s :=
  h.passes (recalling hm.graph hm.graph.gives) hs

theorem printed_of_objectType (hm : m.Distinct) (hs : Named m.graph m.graph.Tells s) {v : Node}
    (hv : v ∈ m.graph.nodesOfSort "ObjectType") (hk : s.known[v.name]? = some o) :
    o.isKind ∧ o.printed = v.name := by
  obtain ⟨hv, hsort⟩ := mem_filter.mp hv
  have hv : v ∈ m.graph.nodes := Array.mem_def.mpr hv
  have hsort : v.sort = "ObjectType" := by simpa using hsort
  have hb : m.graph.Builds v.name := .inl ⟨v, hv, rfl, .objectType, hsort ▸ rfl, rfl, rfl⟩
  have hn : o ≠ .nothing := fun h => hs.built _ hb (h ▸ hk)
  cases hs.known _ o hk hn
  case kind h _ _ _ hname htells _ _ =>
    have hc : h.cls ≠ .one := by
      intro hc
      rw [hc] at htells
      obtain ⟨_, hq⟩ | ⟨w, hw, hwn, hl⟩ | ⟨he, _⟩ := htells
      · cases hq
      · rw [hm.graph.node_eq hw hv hwn, hsort] at hl
        cases hl
      · cases he
    exact ⟨rfl, by rw [Term.printed, hname, if_neg hc]⟩

theorem forall₂_objectTypes (hm : m.Distinct) (h₀ : Session.start m = .ok s₀) (h : Reached s₀ s) :
    Forall₂ (fun v k => k.isKind ∧ k.printed = v.name) (m.graph.nodesOfSort "ObjectType")
      s.objectTypes := by
  have ⟨hs₀, ho⟩ := start_recalled hm h₀
  have ⟨hs, hr⟩ := h.recalls hm hs₀
  rw [hr.objectTypes]
  refine (forall₂_mem ho).imp ?_
  rintro v k ⟨hv, _, hk⟩
  exact printed_of_objectType hm hs₀ hv hk

theorem paths_ne_nil_iff {ps : List (List Term)} (ht : t ≠ .nothing) (hu : u ≠ .nothing)
    (h : (paths t u).Gives s ps s') : ps ≠ [] ↔ s.graph.Reaches t.printed u.printed := by
  have he : paths t u = pathsNamed t.printed u.printed := by
    cases t <;> cases u <;> simp_all [paths]
  rw [he, pathsNamed] at h
  replace h := gives_get_bind.mp h
  have hlen := (h.mapM_forall₂ (R := fun _ _ => True) fun _ _ _ _ _ _ => trivial).length_eq
  rw [Graph.Reaches, ← length_pos_iff, ← length_pos_iff, hlen]

theorem reaches_iff {b : Bool} (ht : t ≠ .nothing) (hu : u ≠ .nothing)
    (h : (reaches t u).Gives s b s') : b = true ↔ s.graph.Reaches t.printed u.printed := by
  obtain ⟨ps, hps, rfl⟩ := gives_bind_pure.mp h
  rw [← paths_ne_nil_iff ht hu hps]
  simp

theorem reaches_nothing {b : Bool} (h : (reaches .nothing u).Gives s b s') : b = false := by
  obtain ⟨ps, hps, rfl⟩ := gives_bind_pure.mp h
  obtain ⟨rfl, _⟩ := gives_pure.mp hps
  rfl

theorem reaches_told {b : Bool} (hm : m.Distinct) (hs : Named m.graph m.graph.Tells s)
    (h : (reaches t u).Gives s b s') :
    Named m.graph m.graph.Tells s' ∧ s'.objectTypes = s.objectTypes ∧
      (t ≠ .nothing → u ≠ .nothing → (b = true ↔ m.graph.Reaches t.printed u.printed)) := by
  obtain ⟨hs', hl, _⟩ := ((recalling hm.graph hm.graph.gives).reaches t u hs).gives h
  exact ⟨hs', hl.objectTypes, fun ht hu => hs.graph ▸ reaches_iff ht hu h⟩

-- The induction is on the object types that are left, with those that are done in the invariant.
theorem lowestAmong_commonOrigin (hm : m.Distinct) {os done : List Term} {choice : Term}
    (hs : Named m.graph m.graph.Tells s) (ht : t ≠ .nothing) (hu : u ≠ .nothing)
    (hos : ∀ o ∈ done ++ os, o ≠ .nothing) (hc : LowestAmong m.graph t u done choice)
    (h : (commonOrigin t u os choice).Gives s x s') : LowestAmong m.graph t u (done ++ os) x := by
  induction os generalizing s done choice
  case nil =>
    obtain ⟨rfl, _⟩ := gives_pure.mp h
    simpa using hc
  case cons o os ih =>
    have hon : o ≠ .nothing := hos o (by simp)
    have hdone : ∀ o ∈ done, o ≠ .nothing := fun o ho => hos o (by simp [ho])
    have next {s : Session} {choice : Term} (hs : Named m.graph m.graph.Tells s)
        (hc : LowestAmong m.graph t u (done ++ [o]) choice)
        (h : (commonOrigin t u os choice).Gives s x s') :
        LowestAmong m.graph t u (done ++ o :: os) x := by
      have := ih hs (by simpa using hos) hc h
      simpa using this
    rw [commonOrigin] at h
    obtain ⟨b₁, s₁, hb₁, h⟩ := gives_bind.mp h
    obtain ⟨hs₁, _, hr₁⟩ := reaches_told hm hs hb₁
    replace hr₁ := hr₁ hon ht
    split at h
    case isFalse hn => exact next hs₁ (hc.append_of_not fun h => absurd (hr₁.mpr h) hn) h
    case isTrue hot =>
      replace hot := hr₁.mp hot
      obtain ⟨b₂, s₂, hb₂, h⟩ := gives_bind.mp h
      obtain ⟨hs₂, _, hr₂⟩ := reaches_told hm hs₁ hb₂
      replace hr₂ := hr₂ hon hu
      split at h
      case isFalse hn => exact next hs₂ (hc.append_of_not fun _ h => hn (hr₂.mpr h)) h
      case isTrue hou =>
        replace hou := hr₂.mp hou
        obtain ⟨b₃, s₃, hb₃, h⟩ := gives_bind.mp h
        obtain ⟨hs₃, _, hr₃⟩ := reaches_told hm hs₂ hb₃
        by_cases hn : choice = .nothing
        case pos =>
          subst hn
          simp only [reaches_nothing hb₃, Bool.false_eq_true, if_false] at h
          exact next hs₃ (hc.append_first hot hou hdone) h
        case neg =>
          replace hr₃ := hr₃ hn hon
          split at h
          case isTrue hco =>
            exact next hs₃ (hc.append_below hm.reaches_trans hn (hr₃.mp hco) hot hou) h
          case isFalse hco =>
            have h : (commonOrigin t u os choice).Gives s₃ x s' := by
              split at h
              · exact absurd rfl hn
              · exact h
            exact next hs₃ (hc.append_beside hn fun h => hco (hr₃.mpr h)) h

-- How an origin is found. Object types above both terms are looked for only if neither of the terms
-- leads to the other one and they are not the same.
theorem origin_split (hm : m.Distinct) (hs : Named m.graph m.graph.Tells s) (ht : t ≠ .nothing)
    (hu : u ≠ .nothing) (hos : ∀ o ∈ s.objectTypes, o ≠ .nothing)
    (h : (origin t u).Gives s x s') :
    (m.graph.Reaches t.printed u.printed ∧ x = t) ∨
    (m.graph.Reaches u.printed t.printed ∧ x = u) ∨
    ((t == u) = true ∧ x = t) ∨
    (¬m.graph.Reaches t.printed u.printed ∧ ¬m.graph.Reaches u.printed t.printed ∧
      (t == u) = false ∧ LowestAmong m.graph t u s.objectTypes x) := by
  have itself {k : Term} {s₁ : Session} (h : (asKind k).Gives s₁ x s') : x = k :=
    ((passes_asKind (R := Eq) (I := fun _ => True) k trivial).gives h).2.2
  rw [origin.eq_def] at h
  split at h
  case h_1 => exact absurd rfl ht
  case h_2 =>
    obtain ⟨b₁, s₁, hb₁, h⟩ := gives_bind.mp h
    obtain ⟨hs₁, ho₁, hr₁⟩ := reaches_told hm hs hb₁
    replace hr₁ := hr₁ ht hu
    split at h
    case isTrue htu => exact .inl ⟨hr₁.mp htu, itself h⟩
    case isFalse hntu =>
      obtain ⟨b₂, s₂, hb₂, h⟩ := gives_bind.mp h
      obtain ⟨hs₂, ho₂, hr₂⟩ := reaches_told hm hs₁ hb₂
      replace hr₂ := hr₂ hu ht
      split at h
      case isTrue hut => exact .inr (.inl ⟨hr₂.mp hut, itself h⟩)
      case isFalse hnut =>
        split at h
        case h_1 => exact absurd rfl hu
        case h_2 =>
          split at h
          case isTrue he => exact .inr (.inr (.inl ⟨he, itself h⟩))
          case isFalse hne =>
            replace h := gives_get_bind.mp h
            rw [← ho₂.trans ho₁] at hos ⊢
            refine .inr (.inr (.inr ⟨mt hr₁.mpr hntu, mt hr₂.mpr hnut, by simpa using hne, ?_⟩))
            have hc : LowestAmong m.graph t u [] .nothing := .nothing (by simp)
            simpa using lowestAmong_commonOrigin hm hs₂ ht hu (by simpa using hos) hc h

theorem origin_cases (hm : m.Distinct) (hs : Named m.graph m.graph.Tells s) (ht : t ≠ .nothing)
    (hu : u ≠ .nothing) (hos : ∀ o ∈ s.objectTypes, o ≠ .nothing)
    (h : (origin t u).Gives s x s') :
    (m.graph.Reaches t.printed u.printed ∧ x = t) ∨
    (m.graph.Reaches u.printed t.printed ∧ x = u) ∨
    ((t == u) = true ∧ x = t) ∨ LowestAmong m.graph t u s.objectTypes x :=
  (origin_split hm hs ht hu hos h).imp_right (·.imp_right (·.imp_right fun h => h.2.2.2))

section Success

variable {I : Session → Prop}

-- Paths can be told in every state with the property `I`, and keep it.
def TellsPaths (I : Session → Prop) : Prop :=
  ∀ {s} (a b : String), I s → ∃ ps s', (pathsNamed a b).Gives s ps s' ∧ I s'

theorem tellsPaths_of_edges {g : Graph} (hg : ∀ {s}, I s → s.graph = g)
    (edge : ∀ e ∈ g.edges, ∀ s, I s → ∃ k s', (restore (.ofEdge e)).Gives s k s' ∧ I s') :
    TellsPaths I := by
  intro s a b hs
  have trail : ∀ es ∈ g.trails a b, ∀ s, I s → ∃ p s',
      (do return (← es.mapM fun e => restore (.ofEdge e)).reverse : SessionM (List Term)).Gives
        s p s' ∧ I s' := by
    intro es hes s hs
    have ⟨_, _, ht⟩ := Graph.trail_of_mem_trails hes
    have ⟨ks, s', hks, hs'⟩ := exists_mapM (fun e he => edge e (ht.mem he)) hs
    exact ⟨ks.reverse, s', hks.bind gives_done, hs'⟩
  have ⟨ps, s', hps, hs'⟩ := exists_mapM trail hs
  exact ⟨ps, s', gives_get_bind.mpr (hg hs ▸ hps), hs'⟩

theorem reaches_gives (hI : TellsPaths I) (hs : I s) (t u : Term) :
    ∃ b s', (reaches t u).Gives s b s' ∧ I s' := by
  have hp : ∃ ps s', (paths t u).Gives s ps s' ∧ I s' := by
    rw [paths.eq_def]
    split
    case h_1 | h_2 => exact ⟨[], s, gives_done, hs⟩
    case h_3       => exact hI t.printed u.printed hs
  obtain ⟨ps, s', hp, hs'⟩ := hp
  exact ⟨_, s', hp.bind gives_done, hs'⟩

theorem commonOrigin_gives (hI : TellsPaths I) (hs : I s) (t u : Term) (os : List Term)
    (choice : Term) : ∃ x s', (commonOrigin t u os choice).Gives s x s' := by
  induction os generalizing s choice
  case nil => exact ⟨choice, s, gives_done⟩
  case cons o os ih =>
    rw [commonOrigin]
    obtain ⟨b₁, s₁, h₁, hs₁⟩ := reaches_gives hI hs o t
    obtain ⟨b₂, s₂, h₂, hs₂⟩ := reaches_gives hI hs₁ o u
    obtain ⟨b₃, s₃, h₃, hs₃⟩ := reaches_gives hI hs₂ choice o
    cases b₁
    case false =>
      obtain ⟨x, s', hx⟩ := ih hs₁ choice
      exact ⟨x, s', h₁.bind hx⟩
    case true =>
      cases b₂
      case false =>
        obtain ⟨x, s', hx⟩ := ih hs₂ choice
        exact ⟨x, s', h₁.bind (h₂.bind hx)⟩
      case true =>
        obtain ⟨x, s', hx⟩ := ih hs₃ o
        obtain ⟨y, s'', hy⟩ := ih hs₃ choice
        cases b₃
        case true => exact ⟨x, s', h₁.bind (h₂.bind (h₃.bind hx))⟩
        case false =>
          cases choice
          case nothing => exact ⟨x, s', h₁.bind (h₂.bind (h₃.bind hx))⟩
          all_goals exact ⟨y, s'', h₁.bind (h₂.bind (h₃.bind hy))⟩

theorem exists_origin (hI : TellsPaths I) (hs : I s) (ht : t.isKind) (hu : u.isKind) :
    ∃ x s', (origin t u).Gives s x s' := by
  have itself {k : Term} (hk : k.isKind) (s : Session) : (asKind k).Gives s k s := by
    cases k <;> simp [Term.isKind] at hk
    exact gives_done
  obtain ⟨h, ty, d, c, k, rfl⟩ : ∃ h ty d c k, u = .kind h ty d c k := by
    cases u <;> simp [Term.isKind] at hu ⊢
  obtain ⟨b₁, s₁, h₁, hs₁⟩ := reaches_gives hI hs t (.kind h ty d c k)
  obtain ⟨b₂, s₂, h₂, hs₂⟩ := reaches_gives hI hs₁ (.kind h ty d c k) t
  obtain ⟨x, s', hx⟩ := commonOrigin_gives hI hs₂ t (.kind h ty d c k) s₂.objectTypes .nothing
  rw [origin.eq_def]
  split
  case h_1 => cases ht
  case h_2 =>
    cases b₁
    case true  => exact ⟨t, s₁, h₁.bind (itself ht s₁)⟩
    case false =>
      cases b₂
      case true  => exact ⟨_, s₂, h₁.bind (h₂.bind (itself hu s₂))⟩
      case false =>
        obtain ⟨x, s', hx⟩ : ∃ x s', Gives (if t == .kind h ty d c k then asKind t else
            do commonOrigin t (.kind h ty d c k) (← get).objectTypes .nothing) s₂ x s' := by
          split
          · exact ⟨t, s₂, itself ht s₂⟩
          · exact ⟨x, s', gives_get_bind.mpr hx⟩
        exact ⟨x, s', h₁.bind (h₂.bind hx)⟩

theorem tellsPaths_soundOn (g : Graph) : TellsPaths (SoundOn g) := by
  intro s a b hs
  have ⟨ps, s', h, _, hs', _⟩ := pathsNamed_recalls (SoundOn.kept g) a b hs
  exact ⟨ps, s', h, hs'⟩

theorem origin_gives {g : Graph} (hs : SoundOn g s) (ht : t.isKind) (hu : u.isKind) :
    ∃ x s', (origin t u).Gives s x s' :=
  exists_origin (tellsPaths_soundOn g) hs ht hu

end Success

-- What an origin of two terms has to be: one of them or above them, and none of the object types
-- above both lies below it, unless it leads back.
structure IsOrigin (g : Graph) (os : List Term) (t u x : Term) : Prop where
  left   : x == t ∨ g.Reaches x.printed t.printed
  right  : x == u ∨ g.Reaches x.printed u.printed
  lowest : (t == u) = false → ¬g.Reaches t.printed u.printed → ¬g.Reaches u.printed t.printed →
    ∀ o ∈ os, g.Reaches o.printed t.printed → g.Reaches o.printed u.printed →
      g.Reaches x.printed o.printed → o = x ∨ g.Reaches o.printed x.printed

-- Wherever a session has come to, the origin of two of its object types is a lowest one, and there
-- is none only if no object type reaches both. Where all kinds can be recalled, it is found.
theorem origin_lowest (hm : m.Distinct) (h₀ : Session.start m = .ok s₀) (h : Reached s₀ s)
    (ht : t ∈ s.objectTypes) (hu : u ∈ s.objectTypes) :
    s.objectTypes.map Term.printed = (m.graph.nodesOfSort "ObjectType").map (·.name) ∧
    (∀ x s', (origin t u).Gives s x s' →
      (x ≠ .nothing → IsOrigin m.graph s.objectTypes t u x) ∧
      (x = .nothing → ∀ o ∈ s.objectTypes, m.graph.Reaches o.printed t.printed →
        ¬m.graph.Reaches o.printed u.printed)) ∧
    (m.Fit → ∃ x s', (origin t u).Gives s x s') := by
  have ho := forall₂_objectTypes hm h₀ h
  have hk : ∀ o ∈ s.objectTypes, o.isKind := by
    intro o hm
    have ⟨_, _, hk, _⟩ := exists_of_mem_right ho hm
    exact hk
  have hn : ∀ o ∈ s.objectTypes, o ≠ .nothing := by
    rintro o hm rfl
    cases hk _ hm
  have hs := (h.recalls hm (start_recalled hm h₀).left).left
  refine ⟨(map_eq_map_of_forall₂ ho fun _ _ h => h.right.symm).symm, fun x s' hx => ?_, fun hf => ?_⟩
  · obtain ⟨hr, rfl⟩ | ⟨hr, rfl⟩ | ⟨he, rfl⟩ | hl :=
      origin_cases hm hs (hn t ht) (hn u hu) hn hx
    · refine ⟨fun _ => ⟨.inl BEq.rfl, .inr hr, fun _ h => absurd hr h⟩, fun h => ?_⟩
      exact absurd h (hn x ht)
    · refine ⟨fun _ => ⟨.inr hr, .inl BEq.rfl, fun _ _ h => absurd hr h⟩, fun h => ?_⟩
      exact absurd h (hn x hu)
    · refine ⟨fun _ => ⟨.inl BEq.rfl, .inl he, fun h => ?_⟩, fun h => absurd h (hn x ht)⟩
      simp [he] at h
    · cases hl
      case nothing hno => exact ⟨fun h => absurd rfl h, fun _ => hno⟩
      case found hx ht hu hl =>
        exact ⟨fun _ => ⟨.inr ht, .inr hu, fun _ _ _ => hl⟩, fun h => absurd h (hn x hx)⟩
  · have ⟨_, hst⟩ := start_gives h₀
    exact origin_gives (h.soundOn (start_soundOn hf hst)) (hk t ht) (hk u hu)

namespace Dwelling

-- Contracts and jobs lead to each other, and jobs to persons and to firms.
def works : Model where
  nodes := [objectType "contract", objectType "baan", objectType "persoon", objectType "bedrijf"]
  edges := [relation "regelt" "contract" "baan", relation "volgens" "baan" "contract",
    relation "werknemer" "baan" "persoon", relation "werkgever" "baan" "bedrijf"]

theorem works_distinct : works.Distinct :=
  ⟨⟨by decide, by decide, by decide, by decide, by decide⟩, by simp [works]⟩

theorem works_fit : works.Fit :=
  ⟨regular_of_sorts (by decide) (by decide) (by decide), by decide, by simp [works]⟩

-- Persons and firms come from jobs or from contracts.
theorem origin_of_persons_and_firms : works.Distinct ∧ works.Fit ∧
    ∃ s₀, Session.start works = .ok s₀ ∧ Reached s₀ s₀ ∧ ∃ t ∈ s₀.objectTypes, ∃ u ∈ s₀.objectTypes,
      t.printed = "persoon" ∧ u.printed = "bedrijf" ∧
      ∃ x s', (origin t u).Gives s₀ x s' ∧ x ≠ .nothing ∧
        IsOrigin works.graph s₀.objectTypes t u x := by
  have ⟨s₀, h₀⟩ := start_of_fit works_fit rfl
  have ho := forall₂_objectTypes works_distinct h₀ .start
  have hnodes : works.graph.nodesOfSort "ObjectType" =
      [objectType "contract", objectType "baan", objectType "persoon", objectType "bedrijf"] := rfl
  rw [hnodes] at ho
  have ⟨j, t, u, hj, ht, hu, hjn, htn, hun⟩ : ∃ j t u, j ∈ s₀.objectTypes ∧ t ∈ s₀.objectTypes ∧
      u ∈ s₀.objectTypes ∧ j.printed = "baan" ∧ t.printed = "persoon" ∧ u.printed = "bedrijf" := by
    generalize s₀.objectTypes = os at ho
    obtain _ | ⟨_, _ | ⟨⟨_, hj⟩, _ | ⟨⟨_, ht⟩, _ | ⟨⟨_, hu⟩, _ | _⟩⟩⟩⟩ := ho
    exact ⟨_, _, _, by simp, by simp, by simp, hj, ht, hu⟩
  have ⟨_, horigin, hfit⟩ := origin_lowest works_distinct h₀ .start ht hu
  have ⟨x, s', hx⟩ := hfit works_fit
  have ⟨hlowest, hnone⟩ := horigin x s' hx
  have hn : x ≠ .nothing := by
    intro hn
    refine hnone hn j hj ?_ ?_
    · rw [hjn, htn, Graph.Reaches]
      decide
    · rw [hjn, hun, Graph.Reaches]
      decide
  exact ⟨works_distinct, works_fit, s₀, h₀, .start, t, ht, u, hu, htn, hun, x, s', hx, hn, hlowest hn⟩

end Dwelling

end SessionM
end Inquiry
