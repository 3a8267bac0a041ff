import Mathlib
import Inquiry.Proofs.Request.Building
import Inquiry.Proofs.Request.Steering

/-!
Counts and totals are well typed: the term of such a request is an aggregation that goes from the
combinations of the dimensions to numbers, or to what the variables give.
-/

namespace Inquiry

open List Term SessionM Session Keyword

namespace Term

-- What of the pivot is looked at: all of it, or what a selection leaves.
inductive SelectedFrom (pivot : Term) : Term → Term → Prop
  | all : SelectedFrom pivot .nothing pivot
  | some {n args ty b c} : ((Term.app n .inclusion args ty).Goes b c) → (pivot.equals c) →
    SelectedFrom pivot (.app n .inclusion args ty) b

theorem IsTupleType.of_ne_nil {a b : Term} {cs : List Term} {c : Term} (h : IsTupleType a cs c)
    (hn : cs ≠ []) : IsTupleType b cs c := by
  match cs with
  | []          => exact absurd rfl hn
  | [_]         => exact h
  | _ :: _ :: _ => exact h

theorem IsTupleType.exists_app {a : Term} {cs : List Term} {c : Term} (h : IsTupleType a cs c)
    (hn : 2 ≤ cs.length) : ∃ n, c = .app n .cartesianProduct cs none := by
  match cs with
  | _ :: _ :: _ => exact h

theorem IsType.isEqualTo {t : Term} (h : t.IsType) (u : Term) : t.isEqualTo u = .ok (t.equals u) :=
  isEqualTo_of_role h.role u

end Term

-- The paths all begin at the pivot, and end in the types `cs`.
def Path.Fan (pivot : Term) (ps : List Path) (cs : List Term) : Prop :=
  Forall₂ (fun p c => ∃ d, Leads p d c ∧ d.equals pivot) ps cs

namespace Request

variable {r : Request} {s : Session} {pivot target selection split b d c : Term} {ps : List Path}
  {cs numbers : List Term} {ns : List Term} {i m : Nat} {k t : Term}

theorem yields_composeAll (hs : s.Consistent) (h : Path.Fan pivot ps cs) :
    (ps.mapM compose).Yields s (Spread · pivot cs) := by
  induction h generalizing s
  case nil => exact yields_pure hs .nil
  case cons p c ps cs hp _ ih =>
    have ⟨d, hl, hd⟩ := hp
    rw [mapM_cons]
    refine (yields_compose hs hl).bind fun t s₁ _ hs₁ ht => ?_
    exact (ih hs₁).bind fun ts s₂ _ hs₂ hts => yields_pure hs₂ (.cons ⟨d, ht, hd⟩ hts)

theorem forall_ne_nil_of_fan (h : Path.Fan pivot ps cs) : ∀ p ∈ ps, p ≠ [] := by
  induction h
  case nil => simp
  case cons hp _ ih =>
    have ⟨_, hl, _⟩ := hp
    exact forall_mem_cons.mpr ⟨hl.ne_nil, ih⟩

theorem forall_isType_of_fan {led : List Term} (hled : ∀ c ∈ led, c.IsType)
    (h : Path.Fan pivot ps cs) : ∀ c ∈ led ++ cs, c.IsType := by
  refine forall_mem_append.mpr ⟨hled, ?_⟩
  induction h
  case nil => simp
  case cons hp _ ih =>
    have ⟨_, hl, _⟩ := hp
    have ⟨_, _, _, hc⟩ := hl.head
    exact forall_mem_cons.mpr ⟨hc, ih⟩

theorem yields_selected (hs : s.Consistent) (h : Path.Fan pivot ps cs) (hn : ps ≠ []) :
    (selected ps).Yields s fun t =>
      ∃ d c, t.Goes d c ∧ d.equals pivot ∧ IsTupleType .one cs c := by
  have hf : ps.filter (!·.isEmpty) = ps := by
    simpa using forall_ne_nil_of_fan h
  rw [selected, hf]
  refine (yields_composeAll hs h).bind fun ts s₁ _ hs₁ hts => ?_
  have hn : ts ≠ [] := by
    rintro rfl
    cases hts
    cases h
    exact hn rfl
  exact (yields_pair hs₁ hts hn).imp fun t ht => ht.right

theorem yields_compose_selection (hs : s.Consistent) (hb : SelectedFrom pivot selection b)
    (hn : selection ≠ .nothing) (ht : t.Goes d c) (hd : d.equals pivot) :
    (compose [t, selection]).Yields s fun u => ∃ d', u.Goes d' c ∧ d'.equals b := by
  cases hb
  case all => exact absurd rfl hn
  case some he hg =>
    exact (yields_compose hs (.cons ht (.single hg) (equals_trans hd he))).imp
      fun u hu => ⟨b, hu, hg.source.whole⟩

-- The places of object types, relations and constants hold kinds of the graph.
def Refers (r : Request) (s : Session) : Prop :=
  ∀ (i : Nat) (k : String), r.keywords[i]? = some k →
    k ∈ [objectType, relation, constant] →
    ∃ t, ∃ name : String, r.meanings[i]? = some (Meaning.term t) ∧ s.known[name]? = some t ∧
      ((∃ v ∈ s.graph.nodes, v.name = name) ∨ ∃ e ∈ s.graph.edges, e.name = name)

theorem Refers.mentions (hs : s.Consistent) (h : r.Refers s) :
    ∃ ms, r.mentions [objectType, relation, constant] = .ok ms ∧
      ∀ clue ∈ ms.map Meaning.asTerm, clue.IsClue := by
  have hi : ∀ i ∈ r.places [objectType, relation, constant],
      ∃ t, r.meaning i = .ok (.term t) ∧ t.IsClue := by
    intro i hi
    simp only [places, Sequence.numbered, filterMap_map, mem_filterMap,
      Function.comp_apply, Option.ite_none_right_eq_some, Option.some.injEq, Prod.exists,
      mem_zipIdx_iff_getElem?] at hi
    obtain ⟨k, _, hk, hm, rfl⟩ := hi
    have ⟨t, name, ht, hn, hg⟩ := h _ k hk (by simpa using hm)
    have hf := hs.known name t hn
    refine ⟨t, Sequence.get_natCast ht, ?_⟩
    cases hg
    case inl hg => exact .inl (have ⟨v, hv, he⟩ := hg; hf.node v hv he)
    case inr hg =>
      have ⟨e, hm, he⟩ := hg
      have ⟨d, c, _, _, hk⟩ := hf.edge e hm he
      exact .inr ⟨d, c, hk⟩
  rw [Request.mentions]
  generalize r.places [objectType, relation, constant] = is at hi
  induction is
  case nil => exact ⟨[], rfl, by simp⟩
  case cons i is ih =>
    have ⟨⟨t, ht, hc⟩, hi⟩ := forall_mem_cons.mp hi
    have ⟨ms, hms, hall⟩ := ih hi
    exact ⟨.term t :: ms, by simp [mapM_cons, ht, hms], by simpa using ⟨hc, by simpa using hall⟩⟩

theorem yields_extendAll (hs : s.Consistent) (h : ∀ p ∈ ps, ∃ d c, s.Dimension pivot p d c) :
    (ps.mapM Path.extend).Yields s fun ps' =>
      Forall₂ s.Extends ps ps' ∧ ∃ cs, Path.Fan pivot ps' cs := by
  have hm : (ps.mapM Path.extend).Yields s (Forall₂ (fun p p' =>
      s.Extends p p' ∧ ∃ d c, Leads p' d c ∧ d.equals pivot) ps) :=
    yields_mapM hs fun p hp s' hl hs' => by
      have ⟨d, c, hd⟩ := h p hp
      exact (yields_extend hs' (hd.later hl)).imp fun _ hp => hp.imp_left hl.extends_iff.mp
  refine hm.imp fun ps' hps => ⟨hps.imp fun _ _ h => h.left, ?_⟩
  clear hm h
  induction hps
  case nil => exact ⟨[], .nil⟩
  case cons hp _ ih =>
    have ⟨_, d, c, hl, hd⟩ := hp
    have ⟨cs, hcs⟩ := ih
    exact ⟨c :: cs, .cons ⟨d, hl, hd⟩ hcs⟩

def ledTo (target split : Term) : List Term :=
  target :: if split matches .nothing then [] else [split]

-- A path of edges from one object type to another, which is empty if there is no way.
def Way (s : Session) (o t : Term) (p : Path) : Prop :=
  if s.graph.trails o.printed t.printed = [] then p = []
  else Leads p o t ∧ ∀ k ∈ p, ∃ d c, k.ElementKind d c

theorem yields_way {clues : List Term} (hs : s.Consistent) (hp : s.HasObjectType pivot)
    (ht : s.HasObjectType t) (hc : ∀ clue ∈ clues, clue.IsClue) :
    (bestPath pivot t clues []).Yields s (Way s pivot t) := by
  by_cases hr : s.graph.trails pivot.printed t.printed = []
  case pos => exact (yields_bestPath_nil _ [] hs hp ht hr).imp fun p h => by simpa [Way, hr] using h
  case neg => exact (yields_bestPath hs hp ht hr hc).imp fun p h => by simpa [Way, hr] using h

theorem yields_breakdown {Q : Term × List Path → Prop} (hs : s.Consistent)
    (hps : ∀ p ∈ ps, ∃ d c, s.Dimension pivot p d c)
    (hw : (pivot == target) = false → r.Refers s ∧ s.HasObjectType pivot ∧ s.HasObjectType target ∧
      (split = .nothing ∨ s.HasObjectType split))
    (hQ : ∀ s' led ps' cs, s'.Consistent → Forall₂ s.Extends ps ps' → Path.Fan pivot ps' cs →
      (if pivot == target then led = [] else Forall₂ (Way s pivot) (ledTo target split) led) →
      (brokenDown pivot target selection ps' led).Yields s' Q) :
    (r.breakdown pivot target selection ps split).Yields s Q := by
  rw [breakdown]
  refine (yields_extendAll hs hps).bind ?_
  rintro ps' s₁ hl₁ hs₁ ⟨hext, cs, hfan⟩
  by_cases he : pivot == target
  case pos =>
    simp only [he, if_true] at hQ
    rw [if_pos he]
    refine (yields_pure hs₁ rfl).bind ?_
    rintro _ s₂ _ hs₂ rfl
    exact hQ _ _ _ _ hs₂ hext hfan rfl
  case neg =>
    simp only [he, Bool.false_eq_true, if_false] at hQ
    rw [if_neg he]
    obtain ⟨hr, hp, ht, hsp⟩ := hw (by simpa using he)
    obtain ⟨ms, hms, hclues⟩ := hr.mentions hs
    refine (yields_ofExcept hs₁ hms rfl).bind ?_
    rintro _ s₂ hl₂ hs₂ rfl
    have hl₂ := hl₁.trans hl₂
    have way {t : Term} {s' : Session} (hl : s.Later s') (hs' : s'.Consistent)
        (ht : s.HasObjectType t) :
        (bestPath pivot t (ms.map Meaning.asTerm) []).Yields s' (Way s pivot t) :=
      (yields_way hs' (hp.later hl) (ht.later hl) hclues).imp fun _ h => by
        simpa only [Way, hl.graph] using h
    cases hsp
    case inl hsp =>
      subst hsp
      refine (yields_pure hs₂ rfl).bind ?_
      rintro _ s₃ hl₃ hs₃ rfl
      refine (way (hl₂.trans hl₃) hs₃ ht).bind fun p s₄ _ hs₄ hp => ?_
      refine (yields_pure hs₄ rfl).bind ?_
      rintro _ s₅ _ hs₅ rfl
      exact hQ _ _ _ _ hs₅ hext hfan (.cons hp .nil)
    case inr hsp =>
      obtain ⟨_, _, _, _, _, rfl, _⟩ := hsp.typeKind
      refine (way hl₂ hs₂ hsp).bind fun q s₃ hl₃ hs₃ hq => ?_
      refine (yields_pure hs₃ rfl).bind ?_
      rintro _ s₄ hl₄ hs₄ rfl
      refine (way (hl₂.trans (hl₃.trans hl₄)) hs₄ ht).bind fun p s₅ _ hs₅ hp => ?_
      refine (yields_pure hs₅ rfl).bind ?_
      rintro _ s₆ _ hs₆ rfl
      exact hQ _ _ _ _ hs₆ hext hfan (.cons hp (.cons hq .nil))

theorem yields_turned {u : Term} (hs : s.Consistent) (hu : u.Goes d c) (hd : d.equals b) :
    (turned pivot target u ps).Yields s fun y =>
      y.2 = ps ∧ ∃ d', y.1.Goes d' c ∧ ((pivot == target) = true → d'.equals b) := by
  rw [turned.eq_def]
  split
  case h_1 => exact absurd rfl hu.ne_nothing
  case h_2 =>
    split
    case isTrue     => exact yields_pure hs ⟨rfl, d, hu, fun _ => hd⟩
    case isFalse he =>
      refine (yields_invert hs hu).bind ?_
      rintro k s' _ hs' ⟨d', hk⟩
      exact yields_pure hs' ⟨rfl, d', hk, fun h => absurd h he⟩

-- The breakdown goes to the combinations of what the paths lead to. It begins where the selection
-- does, unless it has been inverted.
theorem yields_brokenDown {led : List Path} (hs : s.Consistent) (hb : SelectedFrom pivot selection b)
    (h : Path.Fan pivot ((led ++ ps).filter (!·.isEmpty)) cs) :
    (brokenDown pivot target selection ps led).Yields s fun y => y.2 = ps ∧
      (cs ≠ [] → ∃ d c, y.1.Goes d c ∧ IsTupleType .one cs c ∧
        ((pivot == target) = true → d.equals b)) := by
  have hsel : selected (led ++ ps) = selected ((led ++ ps).filter (!·.isEmpty)) := by
    simp [selected]
  rw [brokenDown, hsel]
  by_cases hn : (led ++ ps).filter (!·.isEmpty) = []
  case pos =>
    rw [hn] at h ⊢
    cases h
    refine (yields_pure hs rfl).bind ?_
    rintro _ s₁ _ hs₁ rfl
    refine (yields_pure hs₁ rfl).bind ?_
    rintro _ s₂ _ hs₂ rfl
    cases hb
    case all       => exact yields_pure hs₂ ⟨rfl, by simp⟩
    case some _ hg => exact (yields_turned hs₂ hg hg.source.whole).imp fun y hy => ⟨hy.left, by simp⟩
  case neg =>
    refine (yields_selected hs h hn).bind ?_
    rintro t s₁ _ hs₁ ⟨d, c, ht, hd, hc⟩
    split
    case h_1 => exact absurd rfl ht.ne_nothing
    case h_2 =>
      cases hb
      refine (yields_pure hs₁ rfl).bind ?_
      rintro _ s₂ _ hs₂ rfl
      exact (yields_turned hs₂ ht hd).imp fun y ⟨hy, d', hg, he⟩ => ⟨hy, fun _ => ⟨d', c, hg, hc, he⟩⟩
    case h_3 hsel =>
      refine (yields_compose_selection hs₁ hb hsel ht hd).bind fun u s₂ _ hs₂ ⟨d', hu, hd'⟩ => ?_
      exact (yields_turned hs₂ hu hd').imp fun y ⟨hy, d', hg, he⟩ => ⟨hy, fun _ => ⟨d', c, hg, hc, he⟩⟩

theorem filter_of_fan (h : Path.Fan pivot ps cs) : ps.filter (!·.isEmpty) = ps := by
  simpa using forall_ne_nil_of_fan h

-- What a breakdown gives: the extended paths, which end in the types `cs`, and a term that has to
-- fit these types.
structure BrokenDown (s : Session) (pivot : Term) (ps : List Path)
    (fits : List Term → Term → Prop) (x : Term × List Path) : Prop where
  extended : Forall₂ s.Extends ps x.2
  fan      : ∃ cs, Path.Fan pivot x.2 cs ∧ fits cs x.1

theorem yields_breakdown_direct (hs : s.Consistent) (he : (pivot == target) = true)
    (hb : SelectedFrom pivot selection b) (hps : ∀ p ∈ ps, ∃ d c, s.Dimension pivot p d c) :
    (r.breakdown pivot target selection ps split).Yields s (BrokenDown s pivot ps fun cs k =>
      cs ≠ [] → ∃ d c, k.Goes d c ∧ d.equals b ∧ IsTupleType .one cs c) := by
  refine yields_breakdown hs hps (fun h => absurd h (by simp [he])) ?_
  intro s' led ps' cs hs' hext hfan hled
  obtain rfl : led = [] := by simpa [he] using hled
  have hfan' : Path.Fan pivot (([] ++ ps').filter (!·.isEmpty)) cs := (filter_of_fan hfan).symm ▸ hfan
  refine (yields_brokenDown hs' hb hfan').imp ?_
  rintro ⟨k, _⟩ ⟨rfl, hk⟩
  refine ⟨hext, cs, hfan, fun hn => ?_⟩
  obtain ⟨d, c, hg, hc, hd⟩ := hk hn
  exact ⟨d, c, hg, hd he, hc⟩

theorem yields_brokenDown_led {led : List Path} {ts : List Term} {s' : Session}
    (hs : s'.Consistent) (hb : SelectedFrom pivot selection b) (hn : ts ≠ [])
    (hled : Path.Fan pivot (led.filter (!·.isEmpty)) ts) {ps' : List Path}
    (hext : Forall₂ s.Extends ps ps') (hfan : Path.Fan pivot ps' cs) :
    (brokenDown pivot target selection ps' led).Yields s' (BrokenDown s pivot ps fun cs k =>
      ∃ d c, k.Goes d c ∧ IsTupleType .one (ts ++ cs) c) := by
  have hf : Path.Fan pivot ((led ++ ps').filter (!·.isEmpty)) (ts ++ cs) := by
    rw [filter_append, filter_of_fan hfan]
    exact rel_append hled hfan
  refine (yields_brokenDown hs hb hf).imp ?_
  rintro ⟨k, _⟩ ⟨rfl, hk⟩
  obtain ⟨d, c, hg, hc, _⟩ := hk (by simp [hn])
  exact ⟨hext, cs, hfan, d, c, hg, hc⟩

theorem yields_breakdown_led (hs : s.Consistent) (he : (pivot == target) = false)
    (hb : SelectedFrom pivot selection b) (hps : ∀ p ∈ ps, ∃ d c, s.Dimension pivot p d c)
    (hr : r.Refers s) (hp : s.HasObjectType pivot) (ht : s.HasObjectType target)
    (hpt : s.graph.trails pivot.printed target.printed ≠ [])
    (hsp : split = .nothing ∨ s.HasObjectType split ∧
      s.graph.trails pivot.printed split.printed ≠ []) :
    (r.breakdown pivot target selection ps split).Yields s (BrokenDown s pivot ps fun cs k =>
      ∃ d c, k.Goes d c ∧ IsTupleType .one (ledTo target split ++ cs) c) := by
  refine yields_breakdown hs hps (fun _ => ⟨hr, hp, ht, hsp.imp_right And.left⟩) ?_
  intro s' led ps' cs hs' hext hfan hled
  have hall : ∀ t ∈ ledTo target split, s.graph.trails pivot.printed t.printed ≠ [] := by
    cases hsp
    case inl hsp => simpa [hsp, ledTo] using hpt
    case inr hsp =>
      obtain ⟨_, _, _, _, _, rfl, _⟩ := hsp.left.typeKind
      simpa [ledTo] using And.intro hpt hsp.right
  have hfan' : Path.Fan pivot led (ledTo target split) := by
    simp only [he, Bool.false_eq_true, if_false] at hled
    refine forall₂_iff_get.mpr ⟨hled.length_eq.symm, fun i hi hi' => ?_⟩
    have h := (forall₂_iff_get.mp hled).right i hi' hi
    rw [Way, if_neg (hall _ (get_mem _ _))] at h
    exact ⟨pivot, h.left, hp.typeKind.isType.whole⟩
  exact yields_brokenDown_led hs' hb (by simp [ledTo]) ((filter_of_fan hfan').symm ▸ hfan') hext hfan

theorem yields_value (hs : s.Consistent) (ht : s.HasObjectType target)
    (h : Spread numbers target ns) :
    Yields (if numbers.isEmpty then counting target else pair numbers) s fun v =>
      ∃ d c, v.Goes d c ∧ d.equals target ∧ IsTupleType s.number ns c := by
  cases numbers
  case nil =>
    cases h
    exact (yields_counting hs ht).imp fun v hv => ⟨_, _, hv, ht.typeKind.isType.whole, rfl⟩
  case cons v vs =>
    have hn : ns ≠ [] := by
      rintro rfl
      cases h
    exact (yields_pair hs h (by simp)).imp fun t ⟨_, d, c, hg, hd, hc⟩ =>
      ⟨d, c, hg, hd, hc.of_ne_nil hn⟩

theorem yields_partsFrom (hs : s.Consistent) (hk : k.Goes d (.app m .cartesianProduct cs none))
    (hn : 2 ≤ cs.length) (hc : ∀ c ∈ cs, c.IsType) (hi : i + ps.length = cs.length) :
    (partsFrom k ps (i + 1)).Yields s fun zs? =>
      ∃ zs, zs? = some zs ∧ Forall₂ (fun z c => z.Goes d c) zs (cs.drop i) := by
  induction ps generalizing s i
  case nil =>
    rw [drop_of_length_le (by simpa using hi.ge)]
    exact yields_pure hs ⟨[], rfl, .nil⟩
  case cons p ps ih =>
    simp only [length_cons] at hi
    have hl : i < cs.length := by omega
    have hp := yields_part hs hk hn hc (getElem?_eq_getElem hl)
    have hp : (some <$> part k (i + 1 : Nat)).Yields s fun t? => ∃ t, t? = some t ∧ t.Goes d cs[i] :=
      Yields.map (hp.imp fun t ht => ⟨t, rfl, ht⟩)
    rw [drop_eq_getElem_cons hl, partsFrom]
    refine hp.tryCatch.bind ?_
    rintro _ s₁ _ hs₁ ⟨t, rfl, ht⟩
    refine (ih hs₁ (by omega)).bind ?_
    rintro _ s₂ _ hs₂ ⟨ts, rfl, hts⟩
    exact yields_pure hs₂ ⟨t :: ts, rfl, .cons ht hts⟩

theorem part_fails (hk : k.Goes d (.app m .cartesianProduct cs none)) (hn : 2 ≤ cs.length)
    (hc : ∀ c ∈ cs, c.IsType) :
    (part k (cs.length + 1)).Fails s
      (.invalidApplication .projection (cs ++ [.number (cs.length + 1)])) s.numbered := by
  have hl : ¬(cs ++ [Term.number (cs.length + 1)]).length < 2 := by
    simp only [length_append, length_singleton]
    omega
  have ha : Term.apply s.next .projection (cs ++ [.number (cs.length + 1)]) =
      .error (.invalidApplication .projection (cs ++ [.number (cs.length + 1)])) := by
    have hn' : ¬cs.length + 1 < 3 := by omega
    have hr : cs.allM (hasRole .type) = .ok true := allM_eq_ok_true fun c h => (hc c h).hasRole
    have hp : isPositionIn cs.length (.number (cs.length + 1)) = false := by
      simp [isPositionIn, position?]
    simp [apply, Op.admits, hn', hr, hp]
  rw [part]
  refine Gives.bind_fails (gives_ofExcept.mpr ⟨hk.cod, rfl⟩) (Fails.bind ?_)
  rw [projection, if_neg hl]
  exact Gives.bind_fails (gives_modifyGet.mpr rfl) (fails_ofExcept ha)

theorem yields_partsFrom_missing (hs : s.Consistent)
    (hk : k.Goes d (.app m .cartesianProduct cs none)) (hn : 2 ≤ cs.length)
    (hc : ∀ c ∈ cs, c.IsType) (hi : i ≤ cs.length) (hps : cs.length < i + ps.length) :
    (partsFrom k ps (i + 1)).Yields s (· = none) := by
  induction ps generalizing s i
  case nil =>
    simp only [length_nil] at hps
    omega
  case cons p ps ih =>
    simp only [length_cons] at hps
    rw [partsFrom]
    by_cases hl : i < cs.length
    case pos =>
      have hp := yields_part hs hk hn hc (getElem?_eq_getElem hl)
      have hp : (some <$> part k (i + 1 : Nat)).Yields s fun t? => ∃ t, t? = some t :=
        Yields.map (hp.imp fun t _ => ⟨t, rfl⟩)
      refine hp.tryCatch.bind ?_
      rintro _ s₁ _ hs₁ ⟨t, rfl⟩
      refine (ih hs₁ (by omega) (by omega)).bind ?_
      rintro _ s₂ _ hs₂ rfl
      exact yields_pure hs₂ rfl
    case neg =>
      obtain rfl : i = cs.length := by omega
      have hf := (part_fails (s := s) hk hn hc).map (g := some)
      refine ⟨none, s.numbered, Gives.bind (hf.tryCatch gives_done) ?_,
        .numbered s, hs.numbered, rfl⟩
      exact gives_done

theorem eq_nil_of_fan (h : Path.Fan pivot ps cs) : (ps.isEmpty || ps == [[]]) = true ↔ ps = [] := by
  have hn := forall_ne_nil_of_fan h
  match ps with
  | []               => simp
  | [] :: _          => simp at hn
  | [_ :: _]         => simp
  | (_ :: _) :: _ :: _ => simp

theorem yields_byDimensions {w dw : Term} {led : List Term} {f : Option Term → SessionM β}
    {Q : β → Prop} (hi : i = led.length) (hs : s.Consistent) (hfan : Path.Fan pivot ps cs)
    (hled : ∀ c ∈ led, c.IsType) (hw : w.Goes dw .one) (hdw : dw.equals b)
    (hk : ps ≠ [] → ∃ d c, k.Goes d c ∧ d.equals b ∧ IsTupleType .one (led ++ cs) c)
    (hf : ∀ w s', s.Later s' → s'.Consistent → (∃ d c, w.Goes d c ∧ d.equals b ∧
      IsTupleType .one cs c) → (f (some w)).Yields s' Q) :
    (overDimensions w k ps i f).Yields s Q := by
  unfold overDimensions
  subst hi
  have chosen {u : Term} {s' : Session} (hl : s.Later s') (hs' : s'.Consistent)
      (hu : ∃ d c, u.Goes d c ∧ d.equals b ∧ IsTupleType .one cs c) :
      (pure (some u) >>= f).Yields s' Q :=
    (yields_pure (P := (· = some u)) hs' rfl).bind fun _ s'' hl' hs'' he =>
      he ▸ hf u s'' (hl.trans hl') hs'' hu
  have hlen := Forall₂.length_eq hfan
  by_cases hps : ps = []
  case pos =>
    rw [if_pos ((eq_nil_of_fan hfan).mpr hps)]
    subst hps
    cases hfan
    exact chosen (.refl s) hs ⟨dw, .one, hw, hdw, rfl⟩
  case neg =>
    obtain ⟨d, c, hk, hd, hc⟩ := hk hps
    rw [if_neg (hps ∘ (eq_nil_of_fan hfan).mp)]
    split
    case isTrue hone =>
      simp only [Bool.and_eq_true, beq_iff_eq, length_eq_zero_iff] at hone
      exact chosen (.refl s) hs ⟨d, c, hk, hd, by simpa [hone.left] using hc⟩
    case isFalse hone =>
      simp only [Bool.and_eq_true, beq_iff_eq] at hone
      have hn : 2 ≤ (led ++ cs).length := by
        have := length_pos_iff.mpr hps
        rw [length_append]
        omega
      obtain ⟨m, rfl⟩ := hc.exists_app hn
      refine (yields_partsFrom hs hk hn (forall_isType_of_fan hled hfan) (by simp [hlen])).bind ?_
      rintro _ s₁ hl₁ hs₁ ⟨zs, rfl, hzs⟩
      rw [drop_left] at hzs
      have hsp : Spread zs d cs := hzs.imp fun _ _ h => ⟨d, h, h.source.whole⟩
      have hne : zs ≠ [] := by
        rintro rfl
        cases hzs
        exact hps (length_eq_zero_iff.mp hlen)
      refine (yields_pair hs₁ hsp hne).bind ?_
      rintro u s₂ hl₂ hs₂ ⟨_, d', c', hu, hd', hc'⟩
      exact chosen (hl₁.trans hl₂) hs₂ ⟨d', c', hu, equals_trans hd' hd, hc'⟩

-- If the parts are looked for one place too far, the last one is missing.
theorem yields_byDimensions_missing {w ck : Term} {led : List Term} {f : Option Term → SessionM β}
    {Q : β → Prop} (hi : i = led.length + 1) (hs : s.Consistent) (hfan : Path.Fan pivot ps cs)
    (hps : ps ≠ []) (hn : led ≠ []) (hled : ∀ c ∈ led, c.IsType) (hk : k.Goes d ck)
    (hck : IsTupleType .one (led ++ cs) ck)
    (hf : ∀ s', s.Later s' → s'.Consistent → (f none).Yields s' Q) :
    (overDimensions w k ps i f).Yields s Q := by
  unfold overDimensions
  subst hi
  have hlen := Forall₂.length_eq hfan
  have hp := length_pos_iff.mpr hps
  have hl := length_pos_iff.mpr hn
  have happ : (led ++ cs).length = led.length + cs.length := length_append
  obtain ⟨m, rfl⟩ := hck.exists_app (by omega)
  have htypes := forall_isType_of_fan hled hfan
  rw [if_neg (hps ∘ (eq_nil_of_fan hfan).mp), if_neg (by simp)]
  refine (yields_partsFrom_missing hs hk (by omega) htypes (by omega) (by omega)).bind ?_
  rintro _ s₁ hl₁ hs₁ rfl
  exact (yields_pure (P := (· = none)) hs₁ rfl).bind fun _ s₂ hl₂ hs₂ he =>
    he ▸ hf s₂ (hl₁.trans hl₂) hs₂

variable (r s pivot target ps numbers selection split) in
-- The term is an aggregation, from the combinations of what the extended paths lead to, to what the
-- variables give.
structure Totals (x : Term × List Path) : Prop where
  aggregates : ∃ n v w ty, x.1 = .app n .aggregation [v, w] (some ty)
  extended   : Forall₂ s.Extends ps x.2
  ends       : ∃ d c cs ns, x.1.Goes d c ∧ Path.Fan pivot x.2 cs ∧ IsTupleType .one cs d ∧
    Spread numbers target ns ∧ IsTupleType s.number ns c

theorem restricted_iff (he : (pivot == target) = true) :
    (pivot == target && !(selection matches .nothing)) = true ↔ selection ≠ .nothing := by
  cases selection <;> simp [he]

theorem yields_restricted {restricted : Bool} (hs : s.Consistent)
    (hr : restricted = true ↔ selection ≠ .nothing) (hb : SelectedFrom pivot selection b)
    (ht : t.Goes d c) (hd : d.equals pivot) :
    Yields (if restricted = true then compose [t, selection] else pure t) s
      fun u => ∃ d', u.Goes d' c ∧ d'.equals b := by
  split
  case isTrue h  => exact yields_compose_selection hs hb (hr.mp h) ht hd
  case isFalse h =>
    cases hb
    case all  => exact yields_pure hs ⟨d, ht, hd⟩
    case some => exact absurd (hr.mpr nofun) h

theorem yields_total_direct (hs : s.Consistent) (ht : s.HasObjectType target)
    (hb : SelectedFrom target selection b) (hps : ∀ p ∈ ps, ∃ d c, s.Dimension target p d c)
    (hns : Spread numbers target ns) :
    (r.totalTerm target target ps numbers selection split).Yields s
      (Totals s target target ps numbers) := by
  have he := beq_self_eq_true target
  unfold totalTerm
  refine Yields.bind (yields_breakdown_direct hs he hb hps) ?_
  rintro ⟨k, ps'⟩ s₁ hl₁ hs₁ hk
  refine Yields.bind_ite (yields_value hs₁ (ht.later hl₁) hns) ?_
  rintro v s₂ hl₂ hs₂ ⟨d, c, hv, hd, hc⟩
  have hl₂ := hl₁.trans hl₂
  refine Yields.bind (yields_together hs₂ (ht.later hl₂)) fun w s₃ hl₃ hs₃ hw => ?_
  have hw' := ht.typeKind.isType.whole
  refine Yields.bind_ite (yields_restricted hs₃ (restricted_iff he) hb hw hw') ?_
  rintro w s₄ _ hs₄ ⟨dw, hw, hdw⟩
  refine Yields.bind_ite (yields_restricted hs₄ (restricted_iff he) hb hv hd) ?_
  rintro v s₅ _ hs₅ ⟨dv, hv, hdv⟩
  simp only [he, if_true]
  refine (yields_pure hs₅ rfl).bind ?_
  rintro _ s₆ _ hs₆ rfl
  refine (yields_pure hs₆ rfl).bind ?_
  rintro _ s₇ _ hs₇ rfl
  have ⟨hext, cs, hfan, hk⟩ := hk
  have hcs : ps' ≠ [] → cs ≠ [] := by
    rintro hn rfl
    cases hfan
    exact hn rfl
  have hi : 0 = ([] : List Term).length := rfl
  refine yields_byDimensions hi hs₇ hfan (by simp) hw hdw (hk ∘ hcs) ?_
  rintro w' s' _ hs' ⟨d', c', hw', hd', hc'⟩
  have he := equals_trans hdv (equals_symm hd')
  refine (yields_aggregate hs' hv hw' he).bind fun t s'' _ hs'' ⟨⟨n, ty, ht⟩, hg⟩ => ?_
  exact yields_pure hs'' ⟨⟨n, v, w', ty, ht⟩, hext, c', c, cs, ns, hg, hfan, hc', hns,
    hl₁.number ▸ hc⟩

theorem yields_first (hs : s.Consistent) (hk : k.Goes d c) (ht : target.TypeKind)
    (hc : IsTupleType .one (target :: cs) c) (hcs : ∀ c ∈ target :: cs, c.IsType) :
    (part k 1).Yields s (·.Goes d target) := by
  cases cs
  case nil =>
    cases hc
    obtain ⟨_, _, _, _, _, rfl, _⟩ := ht
    rw [part]
    refine (yields_ofExcept hs hk.cod rfl).bind ?_
    rintro _ s₁ _ hs₁ rfl
    exact yields_pure hs₁ hk
  case cons c' cs =>
    obtain ⟨m, rfl⟩ := hc
    exact yields_part (k := 0) hs hk (by simp) hcs rfl

theorem forall_isType_ledTo (ht : target.TypeKind) (hsp : split = .nothing ∨ split.TypeKind) :
    ∀ c ∈ ledTo target split, c.IsType := by
  cases hsp
  case inl h => simpa [ledTo, h] using ht.isType
  case inr h =>
    have hs := h.isType
    obtain ⟨_, _, _, _, _, rfl, _⟩ := h
    simpa [ledTo] using ⟨ht.isType, hs⟩

theorem length_ledTo (he : (pivot == target) = false) :
    (if (pivot == target) = true then 0 else if (split matches .nothing) = true then 1 else 2)
      = (ledTo target split).length := by
  cases split <;> simp [he, ledTo]

theorem yields_else {p : Prop} [Decidable p] {x : SessionM α} {a : α} (hs : s.Consistent)
    (h : ¬p) : Yields (if p then x else pure a) s (· = a) :=
  if_neg h ▸ yields_pure hs rfl

-- What becomes of a breakdown that begins with the target and the types `led`: a total if these are
-- all the types that should come first, and nothing if one of them is missing.
theorem yields_total_of_breakdown (led : List Term) (he : (pivot == target) = false)
    (hns : Spread numbers target ns) (ht : s.HasObjectType target)
    (hb : (r.breakdown pivot target selection ps split).Yields s (BrokenDown s pivot ps fun cs k =>
      ∃ d c, k.Goes d c ∧ IsTupleType .one (target :: led ++ cs) c)) (hled : ∀ c ∈ led, c.IsType)
    (hlen : (ledTo target split).length = led.length + 1 ∨
      (ledTo target split).length = led.length + 2 ∧ ps ≠ []) :
    (r.totalTerm pivot target ps numbers selection split).Yields s fun x =>
      ((ledTo target split).length = led.length + 1 → Totals s pivot target ps numbers x) ∧
      ((ledTo target split).length = led.length + 2 → x.1 = .nothing) := by
  unfold totalTerm
  refine Yields.bind hb ?_
  rintro ⟨k, ps'⟩ s₁ hl₁ hs₁ ⟨hext, cs, hfan, dk, ck, hk, hck⟩
  dsimp only at hext hfan hk
  refine Yields.bind_ite (yields_value hs₁ (ht.later hl₁) hns) ?_
  rintro v s₂ hl₂ hs₂ ⟨dv, c, hv, hdv, hc⟩
  have hl₂ := hl₁.trans hl₂
  refine Yields.bind (yields_together hs₂ (ht.later hl₂)) fun w s₃ hl₃ hs₃ hw => ?_
  refine Yields.bind_ite (yields_else hs₃ (by simp [he])) ?_
  rintro _ s₄ _ hs₄ rfl
  refine Yields.bind_ite (yields_else hs₄ (by simp [he])) ?_
  rintro v s₅ _ hs₅ rfl
  have hled : ∀ c ∈ target :: led, c.IsType := forall_mem_cons.mpr ⟨ht.typeKind.isType, hled⟩
  have hall := forall_isType_of_fan hled hfan
  refine Yields.bind_ite (P := (·.Goes dk target)) ?_ ?_
  · rw [if_neg (by simp [he])]
    exact yields_first hs₅ hk ht.typeKind hck hall
  intro z s₆ _ hs₆ hz
  refine Yields.bind_ite (P := (·.Goes dk .one)) ?_ ?_
  · rw [if_neg (by simp [he])]
    exact yields_compose hs₆ (.cons hw (.single hz) ht.typeKind.isType.whole)
  intro w s₇ _ hs₇ hw
  cases hlen
  case inl hlen =>
    have hi : _ = (target :: led).length := (length_ledTo he).trans hlen
    refine yields_byDimensions hi hs₇ hfan hled hw hz.source.whole
      (fun _ => ⟨dk, ck, hk, hz.source.whole, hck⟩) ?_
    rintro w' s' _ hs' ⟨d', c', hw', hd', hc'⟩
    dsimp only
    split
    case h_1 heq => cases heq
    case h_2 => exact absurd rfl hz.ne_nothing
    case h_3 z _ _ _ heq _ =>
      cases heq
      have hdom : (do (← v.dom).isEqualTo (← z.cod)) = .ok true := by
        simp [hv.dom, hz.cod, hv.source.isEqualTo, hdv]
      refine (yields_ofExcept hs' hdom rfl).bind ?_
      rintro _ s₈ _ hs₈ rfl
      refine (yields_compose hs₈ (.cons hv (.single hz) hdv)).bind fun u s₉ _ hs₉ hu => ?_
      refine (yields_aggregate hs₉ hu hw' (equals_symm hd')).bind ?_
      rintro t s₁₀ _ hs₁₀ ⟨⟨n, ty, ht⟩, hg⟩
      refine yields_pure hs₁₀ ⟨fun _ => ?_, by omega⟩
      exact ⟨⟨n, u, w', ty, ht⟩, hext, c', c, cs, ns, hg, hfan, hc', hns, hl₁.number ▸ hc⟩
  case inr hlen =>
    have hps : ps' ≠ [] := by
      rintro rfl
      exact hlen.right (forall₂_nil_right_iff.mp hext)
    have hi : _ = (target :: led).length + 1 := (length_ledTo he).trans hlen.left
    exact yields_byDimensions_missing hi hs₇ hfan hps (by simp) hled hk hck fun s₈ _ hs₈ =>
      yields_pure hs₈ ⟨by omega, fun _ => rfl⟩

theorem yields_total_led (hs : s.Consistent) (he : (pivot == target) = false)
    (hb : SelectedFrom pivot selection b) (hps : ∀ p ∈ ps, ∃ d c, s.Dimension pivot p d c)
    (hns : Spread numbers target ns) (hr : r.Refers s) (hp : s.HasObjectType pivot)
    (ht : s.HasObjectType target) (hpt : s.graph.trails pivot.printed target.printed ≠ [])
    (hsp : split = .nothing ∨ s.HasObjectType split ∧
      s.graph.trails pivot.printed split.printed ≠ []) :
    (r.totalTerm pivot target ps numbers selection split).Yields s
      (Totals s pivot target ps numbers) := by
  have hb := yields_breakdown_led hs he hb hps hr hp ht hpt hsp
  have hled := forall_isType_ledTo ht.typeKind (hsp.imp_right fun h => h.left.typeKind)
  have hy := yields_total_of_breakdown _ he hns ht hb (fun c hc => hled c (.tail _ hc)) (.inl rfl)
  exact hy.imp fun _ hx => hx.left rfl

-- A request for a count or a total, in a session where all that it speaks of is known: there is a
-- way from the pivot to the target and to the split, the dimensions begin at the pivot, the variables
-- are those of the target, and the selection is one of the pivot.
structure AsksTotal (r : Request) (s : Session) (pivot target : Term) (ps : List Path)
    (numbers : List Term) (selection split : Term) : Prop where
  session    : s.Consistent
  refers     : r.Refers s
  begins     : s.HasObjectType pivot
  counted    : s.HasObjectType target
  reached    : pivot = target ∨
    (pivot == target) = false ∧ s.graph.trails pivot.printed target.printed ≠ []
  dimensions : ∀ p ∈ ps, ∃ d c, s.Dimension pivot p d c
  added      : ∀ v ∈ numbers, ∃ d c, v.Goes d c ∧ d.equals target
  selected   : ∃ b, SelectedFrom pivot selection b
  splits     : split = .nothing ∨ s.HasObjectType split ∧
    s.graph.trails pivot.printed split.printed ≠ []

-- A small graph of jobs, their employees and their hours.
namespace Jobs

def graph : Graph where
  nodes := #[⟨"baan", "ObjectType", none⟩, ⟨"persoon", "ObjectType", none⟩,
    ⟨"getal", "Quantity", none⟩]
  edges := #[
    { name := "werknemer", sort := "ObjectTypeRelation", source := 0, target := 1,
      domain := ⟨"baan", "ObjectType"⟩, codomain := ⟨"persoon", "ObjectType"⟩ },
    { name := "uren", sort := "Variable", source := 0, target := 2,
      domain := ⟨"baan", "ObjectType"⟩, codomain := ⟨"getal", "Quantity"⟩ }]

def type (n : Nat) (cls : KindClass) (name : String) : Term :=
  .kind { serial := n, id := .fresh n, cls, name, sort := cls.sort } none none none none

def job    := type 1 .objectType "baan"
def person := type 2 .objectType "persoon"
def amount := type 3 .quantity "getal"

def hours : Term :=
  .kind { serial := 4, id := .fresh 4, cls := .variable, name := "uren", sort := .variable }
    (some (.app 5 .functionalType [job, amount] none)) (some job) (some amount) none

def fresh : Session where
  next   := 6
  graph  := graph
  number := amount
  known  := (({} : Std.HashMap String Term).insert "1" .one).insert "getal" amount

def session : Session :=
  (fresh.know "baan" job).know "persoon" person

theorem graph_consistent : graph.Consistent := by
  refine Graph.consistent_of_heads (by decide) (by decide) (by decide) ?_ ?_ (by simp [graph])
    (by simp [graph])
  · simp [graph]
    decide
  · simp [graph]
    decide

theorem job_typeKind : job.TypeKind       := ⟨_, _, _, _, _, rfl, rfl⟩
theorem person_typeKind : person.TypeKind := ⟨_, _, _, _, _, rfl, rfl⟩
theorem amount_typeKind : amount.TypeKind := ⟨_, _, _, _, _, rfl, rfl⟩

theorem hours_elementKind : hours.ElementKind job amount :=
  ⟨⟨_, _, _, rfl, rfl⟩, job_typeKind, amount_typeKind⟩

theorem session_consistent : session.Consistent := by
  have hf : fresh.Consistent :=
    consistent_of_fresh graph_consistent amount_typeKind rfl (by decide)
  have hj := hf.know (by simp [fresh]) (hf.fits_node (v := ⟨"baan", "ObjectType", none⟩)
    (by simp [fresh, graph]) job_typeKind)
  exact hj.know (by simp [fresh, Session.know]) (hj.fits_node (v := ⟨"persoon", "ObjectType", none⟩)
    (by simp [fresh, Session.know, graph]) person_typeKind)

def request : Request where
  meanings := [.term person]
  keywords := [objectType]

theorem asksTotal : request.AsksTotal session job person [[hours]] [] .nothing .nothing where
  session    := session_consistent
  refers     := by
    intro i k hk _
    have hi : i = 0 := by
      have := (List.getElem?_eq_some_iff.mp hk).1
      simpa [request] using this
    subst hi
    exact ⟨person, "persoon", rfl, known_know .., .inl ⟨⟨"persoon", "ObjectType", none⟩,
      by simp [session, fresh, Session.know, graph], rfl⟩⟩
  begins     := ⟨rfl, by
    rw [session, known_know_of_ne _ _ (by decide)]
    exact known_know ..⟩
  counted    := ⟨rfl, known_know ..⟩
  reached    := .inr ⟨rfl, by decide⟩
  dimensions := by
    simp only [mem_singleton, forall_eq]
    refine ⟨job, amount, .single hours_elementKind.goes, rfl, fun h ty he => ?_, fun vs hvs => ?_⟩
    · cases he
    · cases hvs
  added      := by simp
  selected   := ⟨job, .all⟩
  splits     := .inl rfl

end Jobs

end Request
end Inquiry
