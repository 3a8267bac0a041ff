import Mathlib
import Inquiry.Proofs.Request.Choosing
import Inquiry.Proofs.Session.Recall
import Inquiry.Request.Dimension

/-!
The terms that requests are built from are well typed, if their parts are.
-/

namespace Inquiry

open List Term

namespace Term

-- The kind of a node or an edge.
def IsClue (k : Term) : Prop :=
  k.TypeKind ∨ ∃ d c, k.ElementKind d c

theorem Goes.ne_nothing {t d c : Term} (h : t.Goes d c) : t ≠ .nothing := by
  rintro rfl
  simpa [role?] using h.role

namespace ElementKind

variable {k d c : Term}

theorem links (h : k.ElementKind d c) : k.Links d c := by
  obtain ⟨_, _, _, hk, hc⟩ := h.shape
  exact ⟨⟨_, _, _, hk, hc⟩, h.source.isType.role, h.target.isType.role⟩

theorem domain_eq (h : k.ElementKind d c) : k.domain = .ok d :=
  h.links.domain_eq

end ElementKind

theorem IsClue.canBeClue {k : Term} (h : k.IsClue) : k.CanBeClue := by
  rcases h with ⟨h, ty, d, c, q, rfl, hc⟩ | ⟨d, c, h⟩
  case inl => exact ⟨h, ty, d, c, q, rfl, by simp [KindClass.isElement, hc]⟩
  case inr =>
    obtain ⟨_, _, _, rfl, _⟩ := h.shape
    exact ⟨_, _, _, _, _, rfl, fun _ => ⟨d, rfl, h.source.isType.role⟩⟩

end Term

namespace Path

variable {s : Session} {clues : List Term}

theorem best_ok {ps : List Path} (hint : Path) (hn : ps ≠ [])
    (hp : ∀ p ∈ ps, ∀ k ∈ p, ∃ d c, k.ElementKind d c) (hc : ∀ clue ∈ clues, clue.IsClue) :
    ∃ q ∈ ps, best s ps clues hint = .ok q := by
  have hk (p : Path) (h : p ∈ ps) : score s clues p = .ok (points s clues p) :=
    score_eq (fun e he => have ⟨d, c, he⟩ := hp p h e he; ⟨d, c, he.links⟩)
      fun clue h => (hc clue h).canBeClue
  by_cases hh : ∃ p ∈ ps, (!hint.isEmpty && isPrefix hint p) = true
  case pos =>
    obtain ⟨p, hp, hh⟩ := hh
    obtain ⟨hne, hpre⟩ : hint ≠ [] ∧ hint.isPrefixOf p = true := by simpa [isPrefix_eq] using hh
    obtain ⟨q, hq⟩ := Option.isSome_iff_exists.mp (find?_isSome.mpr ⟨p, hp, hpre⟩)
    exact ⟨q, mem_of_find?_eq_some hq, bestFrom_hinted (fun p h => ⟨_, hk p h⟩) hne hq⟩
  case neg =>
    obtain ⟨q, hq, hb⟩ := best_firstBest hk (by simpa using hh) hn
    exact ⟨q, hb.mem, hq⟩

end Path

theorem Term.typeKind_of_isObjectType {t : Term} (h : t.isObjectType) : t.TypeKind := by
  cases t <;> simp only [isObjectType, hasClass, cls?, beq_iff_eq, Option.some.injEq, reduceCtorEq]
    at h
  exact ⟨_, _, _, _, _, rfl, by simp [h, KindClass.isType]⟩

-- The object type is the one that is known under its name.
structure Session.HasObjectType (s : Session) (p : Term) : Prop where
  cls   : p.isObjectType
  known : s.known[p.printed]? = some p

namespace Session.HasObjectType

variable {s s' : Session} {p : Term}

theorem later (h : s.HasObjectType p) (hl : s.Later s') : s'.HasObjectType p :=
  ⟨h.cls, hl.known _ _ h.known⟩

theorem typeKind (h : s.HasObjectType p) : p.TypeKind :=
  typeKind_of_isObjectType h.cls

theorem ne_nothing (h : s.HasObjectType p) : p ≠ .nothing := by
  obtain ⟨_, _, _, _, _, rfl, _⟩ := h.typeKind
  simp

theorem name_eq (h : s.HasObjectType p) : p.name = .ok p.printed := by
  obtain ⟨_, _, _, _, _, rfl, _⟩ := h.typeKind
  rfl

end Session.HasObjectType

namespace SessionM

variable {s : Session} {d c : Term} {ts : List Term} {o p t : Term}

theorem yields_app {op : Op} {P : Term → Prop} (hs : s.Consistent)
    (h : ∀ n, ∃ d c, Builds n op ts d c ∧
      ∀ ty, (Term.app n op ts (some ty)).Goes d c → P (.app n op ts (some ty))) :
    (app op ts).Yields s P := by
  have ⟨d, c, ⟨ty, ht, hg⟩, hP⟩ := h s.next
  refine ⟨_, s.numbered, ?_, .numbered s, hs.numbered, hP ty hg⟩
  exact Gives.bind (gives_modifyGet.mpr rfl) (gives_ofExcept.mpr ⟨ht, rfl⟩)

theorem yields_compose (hs : s.Consistent) (h : Leads ts d c) :
    (compose ts).Yields s (·.Goes d c) := by
  match ts, h with
  | [t], .single h          => exact yields_pure hs h
  | t :: _ :: _, .cons h h' he =>
    exact yields_app hs fun n => ⟨d, c, builds_composition (.cons h h' he) (by simp), fun _ h => h⟩

theorem yields_pair {cs : List Term} (hs : s.Consistent) (h : Spread ts d cs) (hn : ts ≠ []) :
    (pair ts).Yields s fun t =>
      IsTuple ts t ∧ ∃ d' c, t.Goes d' c ∧ d'.equals d ∧ IsTupleType .one cs c := by
  match ts, h with
  | [], _ => exact absurd rfl hn
  | [t], .cons ht .nil =>
    have ⟨d', ht, hd⟩ := ht
    exact yields_pure hs ⟨rfl, d', _, ht, hd, rfl⟩
  | t :: u :: ts, h =>
    refine yields_app hs fun n => ?_
    have ⟨d', m, hd, hb⟩ := builds_product (n := n) h (by simp)
    refine ⟨d', _, hb, fun ty ht => ⟨⟨n, ty, rfl⟩, d', _, ht, hd, ?_⟩⟩
    match cs, h with
    | _ :: _ :: _, _ => exact ⟨m, rfl⟩

theorem yields_part {m k : Nat} {cs : List Term} (hs : s.Consistent)
    (ht : t.Goes d (.app m .cartesianProduct cs none)) (hn : 2 ≤ cs.length)
    (hc : ∀ c ∈ cs, c.IsType) (hk : cs[k]? = some c) : (part t (k + 1)).Yields s (·.Goes d c) := by
  rw [part]
  refine Yields.bind (yields_ofExcept hs ht.cod rfl) ?_
  rintro _ s₁ _ hs₁ rfl
  have hp : (projection (cs ++ [.number (k + 1)])).Yields s₁ fun p =>
      ∃ m, p.Goes (.app m .cartesianProduct cs none) c := by
    have hl : ¬(cs ++ [Term.number (k + 1)]).length < 2 := by
      simp only [length_append, length_singleton]
      omega
    rw [projection, if_neg hl]
    refine yields_app hs₁ fun n => ?_
    have ⟨m, hb⟩ := builds_projection (n := n) hn hc hk
    exact ⟨_, _, hb, fun _ h => ⟨m, h⟩⟩
  refine hp.bind fun p s₂ _ hs₂ ⟨m', hp⟩ => ?_
  exact yields_compose hs₂ (.cons hp (.single ht) (equals_app fun c h => (hc c h).whole))

theorem yields_invert (hs : s.Consistent) (ht : t.Goes d c) :
    (invert [t]).Yields s fun u => ∃ d', u.Goes d' c := by
  refine yields_app hs fun n => ?_
  have ⟨m, hb⟩ := builds_inverse (n := n) ht
  exact ⟨_, _, hb, fun _ h => ⟨_, h⟩⟩

theorem yields_aggregate {v w d' c' : Term} (hs : s.Consistent) (hv : v.Goes d c)
    (hw : w.Goes d' c') (he : d.equals d') : (aggregate [v, w]).Yields s fun t =>
      (∃ n ty, t = .app n .aggregation [v, w] (some ty)) ∧ t.Goes c' c :=
  yields_app hs fun n => ⟨_, _, builds_aggregation hv hw he, fun ty h => ⟨⟨n, ty, rfl⟩, h⟩⟩

theorem paths_eq_pathsNamed (ho : s.HasObjectType o) (ht : s.HasObjectType t) :
    paths o t = pathsNamed o.printed t.printed := by
  obtain ⟨_, _, _, _, _, rfl, _⟩ := ho.typeKind
  obtain ⟨_, _, _, _, _, rfl, _⟩ := ht.typeKind
  rfl

theorem yields_bestPath {clues : List Term} {hint : Path} (hs : s.Consistent)
    (ho : s.HasObjectType o) (ht : s.HasObjectType t) (hr : s.graph.trails o.printed t.printed ≠ [])
    (hc : ∀ clue ∈ clues, clue.IsClue) :
    (bestPath o t clues hint).Yields s fun p =>
      Leads p o t ∧ ∀ k ∈ p, ∃ d c, k.ElementKind d c := by
  have ⟨ps, s₁, hps, hl, hs₁, hlen, hall⟩ := pathsNamed_gives hs ho.known ht.known
  rw [← paths_eq_pathsNamed ho ht] at hps
  have hn : ps ≠ [] := by
    rintro rfl
    exact hr (length_eq_zero_iff.mp hlen.symm)
  have ⟨q, hq, hb⟩ := Path.best_ok (s := s₁) hint hn (fun p hp => (hall p hp).right) hc
  refine ⟨q, s₁, ?_, hl, hs₁, hall q hq⟩
  exact hps.bind (gives_get_bind.mpr (gives_ofExcept.mpr ⟨hb, rfl⟩))

theorem yields_bestPath_nil (clues hint : List Term) (hs : s.Consistent) (ho : s.HasObjectType o)
    (ht : s.HasObjectType t) (hr : s.graph.trails o.printed t.printed = []) :
    (bestPath o t clues hint).Yields s (· = []) := by
  have ⟨ps, s₁, hps, hl, hs₁, hlen, _⟩ := pathsNamed_gives hs ho.known ht.known
  rw [← paths_eq_pathsNamed ho ht] at hps
  obtain rfl : ps = [] := length_eq_zero_iff.mp (by rw [hlen, hr, length_nil])
  refine ⟨[], s₁, ?_, hl, hs₁, rfl⟩
  exact hps.bind (gives_get_bind.mpr (gives_ofExcept.mpr ⟨rfl, rfl⟩))

-- A variable for the type `p` that is made in the session, and known from then on.
structure NewVariable (s s' : Session) (title : String) (p c v : Term) : Prop where
  unknown : s.known[title]? = none
  noEdge  : s.graph.edge? title = none
  after   : s' = s.numbered.know title v
  ends    : v.ElementKind p c
  serial  : v.serial? = some s.next
  name    : v.printed = title

theorem make_variable {c : Term} (n : Nat) (title : String) (hp : p.TypeKind) (hc : c.TypeKind) :
    ∃ v, Term.make n { cls := .variable, name := title, domain := p.present, codomain := some c }
      = .ok v ∧ v.ElementKind p c ∧ v.serial? = some n ∧ v.printed = title :=
  ⟨_, Term.make_element_eq n _ rfl rfl rfl hp.present rfl hp hc nofun,
    ⟨⟨_, _, _, rfl, rfl⟩, hp, hc⟩, rfl, rfl⟩

section Titles

variable {I : Session → Prop} {p : Term}

theorem counting_gives (hI : Session.Kept I) (hs : I s) (hp : s.HasObjectType p)
    (hn : s.number.TypeKind)
    (hk : ∀ {s k}, I s → s.known[countingTitle p.printed]? = some k → k ≠ .nothing) :
    ∃ v s', (counting p).Gives s v s' ∧ (s.Recalled I s' (countingTitle p.printed) v ∨
      NewVariable s s' (countingTitle p.printed) p s.number v) := by
  have hname : (ofExcept p.name : SessionM String).Gives s p.printed s :=
    gives_ofExcept.mpr ⟨hp.name_eq, rfl⟩
  obtain ⟨k, s₁, hk', h⟩ := kindOfSort_variable hI (countingTitle p.printed) hs
  rw [counting]
  cases h
  case inl hr =>
    refine ⟨k, s₁, hname.bind (hk'.bind ?_), .inl hr⟩
    have hne := hk hr.kept hr.known
    cases k <;> simp_all
  case inr h =>
    obtain ⟨rfl, rfl, hu, he⟩ := h
    obtain ⟨v, hv, hve, hvs, hvn⟩ := make_variable s₁.next (countingTitle p.printed) hp.typeKind hn
    refine ⟨v, _, hname.bind (hk'.bind ?_), .inr ⟨hu, he, rfl, hve, hvs, hvn⟩⟩
    refine gives_get_bind.mpr (Gives.bind (gives_make hv) ?_)
    exact gives_known ..

-- A second variable like the new one is given back.
theorem together_gives (hI : Session.Kept I) (hs : I s) (hp : s.HasObjectType p)
    (hk : ∀ {s k}, I s → s.known[togetherTitle p.printed]? = some k → k ≠ .nothing) :
    ∃ w s', (together p).Gives s w s' ∧ (s.Recalled I s' (togetherTitle p.printed) w ∨
      ∃ v s₁, NewVariable s s₁ (togetherTitle p.printed) p .one v ∧ s' = s₁.numbered ∧
        w.ElementKind p .one ∧ w.printed = togetherTitle p.printed) := by
  obtain ⟨k, s₁, hk', h⟩ := kindOfSort_variable hI (togetherTitle p.printed) hs
  rw [together]
  cases h
  case inl hr =>
    refine ⟨k, s₁, hk'.bind ?_, .inl hr⟩
    have hne := hk hr.kept hr.known
    cases k <;> simp_all
  case inr h =>
    obtain ⟨rfl, rfl, hu, he⟩ := h
    have made (n : Nat) := make_variable n (togetherTitle p.printed) hp.typeKind typeKind_one
    obtain ⟨v, hv, hve, hvs, hvn⟩ := made s₁.next
    obtain ⟨w, hw, hwe, _, hwn⟩ := made (s₁.numbered.know (togetherTitle p.printed) v).next
    refine ⟨w, _, hk'.bind ?_, .inr ⟨v, _, ⟨hu, he, rfl, hve, hvs, hvn⟩, rfl, hwe, hwn⟩⟩
    exact Gives.bind (gives_make hv) (Gives.bind (gives_know ..) (gives_make hw))

end Titles

theorem NewVariable.later {s' : Session} {title : String} {c v : Term}
    (h : NewVariable s s' title p c v) : s.Later s' :=
  h.after ▸ (Session.Later.numbered s).trans (.know h.unknown)

theorem ne_nothing_of_counting {p : String} {k : Term} (hs : s.Consistent)
    (h : s.known[countingTitle p]? = some k) : k ≠ .nothing := by
  obtain ⟨_, _, he⟩ := (hs.known _ k h).counting _ rfl
  exact he.goes.ne_nothing

theorem ne_nothing_of_together {p : String} {k : Term} (hs : s.Consistent)
    (h : s.known[togetherTitle p]? = some k) : k ≠ .nothing := by
  obtain ⟨_, _, he⟩ := (hs.known _ k h).together _ rfl
  exact he.goes.ne_nothing

theorem yields_counting (hs : s.Consistent) (hp : s.HasObjectType p) :
    (counting p).Yields s (·.Goes p s.number) := by
  obtain ⟨v, s', hv, h⟩ :=
    counting_gives Session.Consistent.kept hs hp hs.number ne_nothing_of_counting
  cases h
  case inl hr =>
    obtain ⟨d, hd, he⟩ := (hr.kept.known _ _ hr.known).counting _ rfl
    obtain rfl : d = p := Option.some.inj (hd.symm.trans (hr.later.known _ _ hp.known))
    exact ⟨v, s', hv, hr.later, hr.kept, hr.later.number ▸ he.goes⟩
  case inr hn =>
    have hf := hs.fits_counting hn.noEdge hp.known hn.ends
    refine ⟨v, s', hv, hn.later, ?_, hn.ends.goes⟩
    exact hn.after ▸ hs.numbered.know hn.unknown (hf.later (.numbered s))

theorem yields_together (hs : s.Consistent) (hp : s.HasObjectType p) :
    (together p).Yields s (·.Goes p .one) := by
  obtain ⟨w, s', hw, h⟩ := together_gives Session.Consistent.kept hs hp ne_nothing_of_together
  cases h
  case inl hr =>
    obtain ⟨d, hd, he⟩ := (hr.kept.known _ _ hr.known).together _ rfl
    obtain rfl : d = p := Option.some.inj (hd.symm.trans (hr.later.known _ _ hp.known))
    exact ⟨w, s', hw, hr.later, hr.kept, he.goes⟩
  case inr hn =>
    obtain ⟨v, s₁, hn, rfl, hwe, _⟩ := hn
    have hf := hs.fits_together hn.noEdge hp.known hn.ends
    have hs₁ : s₁.Consistent := hn.after ▸ hs.numbered.know hn.unknown (hf.later (.numbered s))
    exact ⟨w, _, hw, hn.later.trans (.numbered s₁), hs₁.numbered, hwe.goes⟩

end SessionM

namespace Session

-- The variables that stand for the type where a path ends, unless it ends in a variable or a tuple.
def variablesFor (s : Session) : Path → Option (List Term)
  | []     => none
  | t :: _ =>
    if t.isVariable then none
    else match t.goal with
      | .ok c    => s.defaults.get? c
      | .error _ => none

-- `p'` is `p`, gone on to the variables that stand for the type where `p` ends.
def Extends (s : Session) (p p' : Path) : Prop :=
  match s.variablesFor p with
  | none    => p' = p
  | some vs => ∃ u, IsTuple vs u ∧ p' = u :: p

-- A path from the pivot to `c`, and variables of `c` where some are to stand for it.
structure Dimension (s : Session) (pivot : Term) (p : Path) (d c : Term) : Prop where
  leads    : Leads p d c
  pivot    : d.equals pivot
  built    : ∀ h ty, p.head? ≠ some (.gap h ty)
  defaults : ∀ vs, s.variablesFor p = some vs → vs ≠ [] ∧
    ∀ v ∈ vs, v.isVariable ∧ ∃ d' c', v.Goes d' c' ∧ d'.equals c

variable {s s' : Session}

theorem Later.variablesFor (h : s.Later s') (p : Path) : s'.variablesFor p = s.variablesFor p := by
  cases p <;> simp [Session.variablesFor, h.defaults]

theorem Later.extends_iff (h : s.Later s') {p p' : Path} : s'.Extends p p' ↔ s.Extends p p' := by
  simp [Extends, h.variablesFor]

theorem Dimension.later {pivot d c : Term} {p : Path} (h : s.Dimension pivot p d c)
    (hl : s.Later s') : s'.Dimension pivot p d c :=
  ⟨h.leads, h.pivot, h.built, fun vs hv => h.defaults vs (hl.variablesFor p ▸ hv)⟩

end Session

namespace SessionM

variable {s : Session}

theorem isType_eq_false_of_role {c : KindClass} (h : c.role = .element) : c.isType = false := by
  cases hc : c.isType <;> simp_all [KindClass.role]

theorem yields_extend {pivot d c : Term} {p : Path} (hs : s.Consistent)
    (h : s.Dimension pivot p d c) :
    p.extend.Yields s fun p' => s.Extends p p' ∧ ∃ d c, Leads p' d c ∧ d.equals pivot := by
  have hl := h.leads
  cases p
  case nil => exact absurd rfl hl.ne_nil
  case cons t ts =>
    have same (hv : s.variablesFor (t :: ts) = none) :
        (pure (t :: ts) : SessionM Path).Yields s fun p' =>
          s.Extends (t :: ts) p' ∧ ∃ d c, Leads p' d c ∧ d.equals pivot :=
      yields_pure hs ⟨by simp [Session.Extends, hv], d, c, hl, h.pivot⟩
    obtain ⟨_, _, hg⟩ := hl.forall_goes t (by simp)
    have hr := hg.role
    cases t <;> simp only [role?, Option.some.injEq, reduceCtorEq] at hr
    case gap => exact (h.built _ _ rfl).elim
    case app => exact same (by simp [Session.variablesFor, isVariable, hasClass, cls?, goal,
      codomain?, Functor.map, Except.map])
    case kind k ty dom cod str =>
      have hc : (Term.kind k ty dom cod str).goal = .ok (cod.getD .nothing) := by
        simp [goal, codomain?, KindClass.isElement, isType_eq_false_of_role hr]
      simp only [Path.extend, hc]
      split
      case isTrue hv => exact same (by simp [Session.variablesFor, hv])
      case isFalse hv =>
        have hvs : s.variablesFor (.kind k ty dom cod str :: ts)
            = s.defaults.get? (cod.getD .nothing) := by
          simp [Session.variablesFor, hv, hc]
        cases hd : s.defaults.get? (cod.getD .nothing) <;> rw [hd] at hvs
        case none =>
          obtain ⟨p', s', hp, hr⟩ := same hvs
          exact ⟨p', s', gives_get_bind.mpr
            (Gives.ofExcept_bind rfl (by simpa [hd] using hp)), hr⟩
        case some vs =>
          obtain ⟨hn, hvs'⟩ := h.defaults vs hvs
          obtain ⟨cs, hcs⟩ := exists_spread fun v hv => (hvs' v hv).right
          obtain ⟨u, s', hu, hl', hs', ht, d', c', hg, he, _⟩ := yields_pair hs hcs hn
          refine ⟨u :: .kind k ty dom cod str :: ts, s', ?_, hl', hs', ?_, d, c', ?_, h.pivot⟩
          · refine gives_get_bind.mpr
              (Gives.ofExcept_bind rfl ?_)
            simp only [hd]
            exact hu.bind gives_done
          · simpa [Session.Extends, hvs] using ht
          · exact .cons hg hl he

end SessionM
end Inquiry
