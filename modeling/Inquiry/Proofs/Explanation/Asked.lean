import Mathlib
import Inquiry.Proofs.Explanation.Told
import Inquiry.Proofs.Session.Faithful

/-!
What is told of a count or a total. What it is aggregated over tells the variables of the
dimensions, those on the way to the target and the split, and the selection; what is aggregated
tells of no other selection.
-/

namespace Inquiry

open List Term

def Path.heads : Path → List Term
  | []                        => []
  | .app _ .product vs _ :: _ => vs
  | t :: _                    => [t]

namespace Session

structure HasElement (s : Session) (k : Term) : Prop where
  known : s.known[k.printed]? = some k
  ends  : ∃ d c, k.ElementKind d c

structure HasRelation (s : Session) (k : Term) : Prop extends s.HasElement k where
  cls : k.isRelation

-- A variable that does not take all objects together.
structure HasVariable (s : Session) (k : Term) : Prop extends s.HasElement k where
  counted : Explanation.isCountedVariable k

-- A path over relations, to a variable or to a type that variables stand for.
inductive DimensionPath (s : Session) : Path → Prop
  | toVariable {v rels} : (s.HasVariable v) → (∀ k ∈ rels, s.HasRelation k) →
    DimensionPath s (v :: rels)
  | toDefaults {r rels vs} : (∀ k ∈ r :: rels, s.HasRelation k) →
    (s.variablesFor (r :: rels) = some vs) → vs ≠ [] → (∀ v ∈ vs, s.HasVariable v) →
      DimensionPath s (r :: rels)

-- A path goes over the edges of a trail, if there is one.
def Leading (s : Session) (o t : Term) (p : Path) : Prop :=
  p = [] ∧ s.graph.trails o.printed t.printed = [] ∨
    ∃ es ∈ s.graph.trails o.printed t.printed, Forall₂ (fun e k => k.KindOf e) es p.reverse

-- The paths from the pivot to the target and to the split.
structure Led (s : Session) (pivot target split : Term) (led : List Path) : Prop where
  direct  : pivot == target → led = []
  reached : (pivot == target) = false → ∃ p ∈ led, s.Leading pivot target p
  each    : ∀ p ∈ led, s.Leading pivot target p ∨ split ≠ .nothing ∧ s.Leading pivot split p

variable {s : Session} {k v : Term}

open Explanation

theorem HasElement.op?_eq (h : s.HasElement k) : k.op? = none := by
  obtain ⟨_, _, h⟩ := h.ends
  exact op?_of_elementKind h

theorem HasElement.tame (h : s.HasElement k) : Tame k := by
  obtain ⟨_, _, h⟩ := h.ends
  exact tame_of_elementKind h

theorem HasElement.name_eq (h : s.HasElement k) : k.name = .ok k.printed := by
  obtain ⟨_, _, h⟩ := h.ends
  obtain ⟨_, _, _, rfl, _⟩ := h.shape
  rfl

theorem HasElement.eq_of_printed (h : s.HasElement k) (h' : s.HasElement v)
    (he : k.printed = v.printed) : k = v :=
  Option.some.inj (h.known.symm.trans (he ▸ h'.known))

theorem Faithful.eq_of_beq_elements (hs : s.Faithful) {ks ks' : List Term} (h : ∀ k ∈ ks, s.HasElement k)
    (h' : ∀ k ∈ ks', s.HasElement k) (he : ks == ks') : ks = ks' := by
  induction ks generalizing ks'
  case nil => cases ks' <;> simp_all
  case cons k ks ih =>
    cases ks'
    case nil => simp at he
    case cons k' ks' =>
      obtain ⟨hk, hks⟩ := forall_mem_cons.mp h
      obtain ⟨hk', hks'⟩ := forall_mem_cons.mp h'
      rw [cons_beq_cons, Bool.and_eq_true_iff] at he
      rw [hs.eq_of_beq ⟨_, hk.known⟩ ⟨_, hk'.known⟩ he.left, ih hks hks' he.right]

theorem HasVariable.told_eq (h : s.HasVariable v) : told v = [v] := by
  rw [told_of_op? h.op?_eq, if_pos h.counted]

theorem HasVariable.isVariable (h : s.HasVariable v) : v.isVariable :=
  (Bool.and_eq_true_iff.mp h.counted).left

theorem HasVariable.cls?_eq (h : s.HasVariable v) : v.cls? = some .variable := by
  simpa [Term.isVariable, hasClass] using h.isVariable

theorem HasVariable.not_isQuotient (h : s.HasVariable v) : isQuotient v = false := by
  have hc := h.cls?_eq
  cases v <;> simp_all [isQuotient, cls?]

theorem HasVariable.not_isRelation (h : s.HasVariable v) : v.isRelation = false := by
  simp [isRelation, h.cls?_eq, KindClass.isRelation]

theorem not_isVariable_of_isRelation (h : k.isRelation) : k.isVariable = false := by
  cases k <;> simp only [isRelation, Term.isVariable, hasClass, cls?, Option.any_none,
    Bool.false_eq_true] at h ⊢
  case kind hd _ _ _ _ => cases hd' : hd.cls <;> simp_all [KindClass.isRelation]

theorem told_of_isRelation (h : k.isRelation) (ho : k.op? = none) : told k = [] := by
  rw [told_of_op? ho, if_neg]
  simp [isCountedVariable, not_isVariable_of_isRelation h]

theorem HasRelation.told_eq (h : s.HasRelation k) : told k = [] :=
  told_of_isRelation h.cls h.op?_eq

theorem flatMap_told_relations {ks : List Term} (h : ∀ k ∈ ks, s.HasRelation k) :
    ks.flatMap told = [] :=
  flatMap_eq_nil_iff.mpr fun k hk => (h k hk).told_eq

theorem flatMap_told_variables {vs : List Term} (h : ∀ v ∈ vs, s.HasVariable v) :
    vs.flatMap told = vs := by
  induction vs
  case nil => rfl
  case cons v vs ih =>
    obtain ⟨hv, hvs⟩ := forall_mem_cons.mp h
    rw [flatMap_cons, hv.told_eq, ih hvs]
    rfl

theorem Leading.ends {o t : Term} {p : Path} (h : s.Leading o t p) :
    ∀ k ∈ p, ∃ d c, k.ElementKind d c := by
  obtain ⟨rfl, _⟩ | ⟨es, _, hes⟩ := h
  · simp
  · intro k hk
    obtain ⟨e, _, hk⟩ := exists_of_mem_right hes (mem_reverse.mpr hk)
    exact hk.ends

-- Every way from one type to another goes over relations.
def OverRelations (s : Session) (o t : Term) : Prop :=
  ∀ es ∈ s.graph.trails o.printed t.printed, ∀ e ∈ es,
    (KindClass.ofLabel? e.sort).any KindClass.isRelation

theorem Leading.told_eq {o t : Term} {p : Path} (h : s.Leading o t p) (hr : s.OverRelations o t) :
    p.flatMap told = [] := by
  obtain ⟨rfl, _⟩ | ⟨es, hes, hp⟩ := h
  · rfl
  · refine flatMap_eq_nil_iff.mpr fun k hk => ?_
    obtain ⟨e, he, hk⟩ := exists_of_mem_right hp (mem_reverse.mpr hk)
    obtain ⟨_, _, hke⟩ := hk.ends
    refine told_of_isRelation ?_ (op?_of_elementKind hke)
    rw [isRelation, hk.cls]
    exact hr es hes e he

theorem Led.ends {pivot target split : Term} {led : List Path} (h : s.Led pivot target split led) :
    ∀ p ∈ led, ∀ k ∈ p, ∃ d c, k.ElementKind d c :=
  fun p hp => (h.each p hp).elim (·.ends) (·.right.ends)

end Session

namespace Explanation

open Session SessionM

variable {s₀ : Session} {k t v : Term} {p p' : Path}

-- The path of a dimension as it has been extended: its variables are told and nothing else.
structure Extended (s₀ : Session) (p p' : Path) : Prop where
  goes : s₀.Extends p p'
  tame : ∀ t ∈ p', Tame t
  told : p'.flatMap told = p'.heads
  vars : ∀ v ∈ p'.heads, s₀.HasVariable v

theorem isTuple_of_applied {vs : List Term} (h : Applied .product vs t) (hn : vs ≠ []) :
    IsTuple vs t := by
  rcases vs with _ | ⟨_, _ | ⟨_, _⟩⟩
  case nil      => exact absurd rfl hn
  case cons.nil => exact h
  case cons.cons =>
    obtain ⟨n, h⟩ := h
    obtain ⟨-, _, _, _, -, rfl⟩ := apply_element rfl h
    exact ⟨n, _, rfl⟩

theorem heads_of_isTuple {vs ts : List Term} (h : IsTuple vs t) (hn : vs ≠ [])
    (hv : ∀ v ∈ vs, s₀.HasVariable v) : Path.heads (t :: ts) = vs := by
  rcases vs with _ | ⟨v, _ | ⟨_, _⟩⟩
  case nil => exact absurd rfl hn
  case cons.nil =>
    obtain rfl : t = v := h
    obtain ⟨_, _, hk⟩ := (hv t (by simp)).ends
    obtain ⟨_, _, _, rfl, _⟩ := hk.shape
    rfl
  case cons.cons =>
    obtain ⟨_, _, rfl⟩ := h
    rfl

theorem onward_numbered (s₀ : Session) : ∀ s, s₀.Onward s → s₀.Onward s.numbered :=
  fun _ => (Onward.kept s₀).numbered

theorem keeps_extend (hp : s₀.DimensionPath p) :
    Keeps (Onward s₀) p.extend (Extended s₀ p) := by
  cases hp
  case toVariable v rels hv hr =>
    have he : Path.extend (v :: rels) = pure (v :: rels) := by
      have h := hv.isVariable
      obtain ⟨_, _, hk⟩ := hv.ends
      obtain ⟨_, _, _, rfl, _⟩ := hk.shape
      simp [Path.extend, h]
    have ht : IsTuple [v] v := rfl
    have hh : Path.heads (v :: rels) = [v] := heads_of_isTuple ht (by simp) (by simpa)
    rw [he]
    refine keeps_pure ⟨?_, ?_, ?_, ?_⟩
    · simp [Extends, variablesFor, hv.isVariable]
    · exact forall_mem_cons.mpr ⟨hv.tame, fun k hk => (hr k hk).tame⟩
    · rw [flatMap_cons, hv.told_eq, flatMap_told_relations hr, hh]
      rfl
    · simpa [hh] using hv
  case toDefaults r rels vs hr hvs hn hv =>
    have hv' := not_isVariable_of_isRelation (hr r (by simp)).cls
    obtain ⟨c, hg, hd⟩ : ∃ c, r.goal = .ok c ∧ s₀.defaults.get? c = some vs := by
      rw [variablesFor, if_neg (by simp [hv'])] at hvs
      split at hvs
      case h_1 c hc => exact ⟨c, hc, hvs⟩
      case h_2      => cases hvs
    obtain ⟨_, _, hk⟩ := (hr r (by simp)).ends
    obtain ⟨_, _, _, rfl, _⟩ := hk.shape
    simp only [Path.extend, hg]
    refine .ite (fun h => absurd h (by simp [hv'])) fun _ => keeps_get.bind fun s hs => ?_
    refine (keeps_outcome (P := (· = c)) (by simp)).bind ?_
    rintro _ rfl
    simp only [hs.later.defaults, hd]
    refine (keeps_joined (onward_numbered s₀) .product vs).bind fun u hu => ?_
    have ht := isTuple_of_applied hu hn
    have hh (ts : List Term) : Path.heads (u :: ts) = vs := heads_of_isTuple ht hn hv
    refine keeps_pure ⟨?_, ?_, ?_, ?_⟩
    · simpa [Extends, hvs] using ht
    · refine forall_mem_cons.mpr ⟨?_, fun k hk => (hr k hk).tame⟩
      exact tame_paired hu fun v hm => (hv v hm).tame
    · rw [flatMap_cons, told_applied (by simp) hu, flatMap_told_variables hv,
        flatMap_told_relations hr, hh, append_nil]
    · rwa [hh]

section Requests

open Request

variable {r : Request} {pivot target selection split : Term} {ps led : List Path}
variable {numbers : List Term}

def toldAlong (ps : List Path) : List Term :=
  ps.flatMap (·.flatMap told)

-- A breakdown tells the paths to the target and the split, the dimensions and the selection.
structure BreaksDown (s₀ : Session) (pivot target split selection : Term) (ps led : List Path)
    (x : Term × List Path) : Prop where
  ways  : s₀.Led pivot target split led
  dims  : Forall₂ (Extended s₀) ps x.2
  tells : told x.1 = toldAlong (led ++ x.2) ++ told selection
  tame  : Tame x.1

theorem tame_along {ps' : List Path} (hl : s₀.Led pivot target split led)
    (hd : Forall₂ (Extended s₀) ps ps') : ∀ p ∈ led ++ ps', ∀ t ∈ p, Tame t := by
  refine forall_mem_append.mpr ⟨fun p hp t ht => ?_, fun p hp t ht => ?_⟩
  · obtain ⟨_, _, h⟩ := hl.ends p hp t ht
    exact tame_of_elementKind h
  · obtain ⟨_, _, h⟩ := exists_of_mem_right hd hp
    exact h.tame t ht

theorem keeps_breakdown (hp : pivot ≠ .nothing) (ht : target ≠ .nothing) (hs : Tame selection)
    (hps : ∀ p ∈ ps, s₀.DimensionPath p) :
    Keeps (Onward s₀) (r.breakdown pivot target selection ps split) fun x =>
      ∃ led, BreaksDown s₀ pivot target split selection ps led x := by
  have hI := onward_numbered s₀
  have ended (u : Term) (led ps' : List Path)
      (h : BreaksDown s₀ pivot target split selection ps led (u, ps')) :
      Keeps (Onward s₀) (turned pivot target u ps')
        fun x => ∃ led, BreaksDown s₀ pivot target split selection ps led x := by
    rw [turned.eq_def]
    split
    case h_1 => exact keeps_pure ⟨led, h⟩
    case h_2 =>
      refine .ite (fun _ => keeps_pure ⟨led, h⟩) fun _ => ?_
      refine (keeps_inverted hI h.tame).bind fun v hv => keeps_pure ⟨led, ?_⟩
      exact ⟨h.ways, h.dims, hv.left.trans h.tells, hv.right⟩
  have rest (led ps' : List Path) (hl : s₀.Led pivot target split led)
      (hd : Forall₂ (Extended s₀) ps ps') :
      Keeps (Onward s₀) (brokenDown pivot target selection ps' led)
        fun x => ∃ led, BreaksDown s₀ pivot target split selection ps led x := by
    refine (keeps_selected hI (tame_along hl hd)).bind ?_
    rintro t ⟨ht, htt⟩
    dsimp only
    split
    case h_1 =>
      refine (keeps_pure (P := (· = selection)) rfl).bind fun u hu => ?_
      exact ended u led ps' ⟨hl, hd, by rw [hu, toldAlong, ← ht]; rfl, hu ▸ hs⟩
    case h_2 =>
      refine (keeps_pure (P := (· = t)) rfl).bind fun u hu => ?_
      exact ended u led ps' ⟨hl, hd, by rw [hu, toldAlong, ← ht]; simp, hu ▸ htt⟩
    case h_3 =>
      refine (keeps_composed hI t _ htt).bind fun u hu => ?_
      exact ended u led ps' ⟨hl, hd, by rw [hu.left, ht, toldAlong], hu.right⟩
  refine (keeps_mapM_forall₂ fun p hp => keeps_extend (hps p hp)).bind fun ps' hd => ?_
  dsimp only
  simp only [pure_bind]
  refine .ite (fun he => ?_) fun he => keeps_ofExcept.bind fun ms _ => ?_
  · exact rest [] ps' ⟨fun _ => rfl, fun h => by simp [he] at h, by simp⟩ hd
  · split
    case h_1 =>
      refine (Onward.keeps_bestPath hp ht).bind fun p hp => rest [p] ps' ?_ hd
      exact ⟨fun h => absurd h he, fun _ => ⟨p, by simp, hp⟩, forall_mem_singleton.mpr (.inl hp)⟩
    case h_2 hn =>
      refine (Onward.keeps_bestPath hp hn).bind fun q hq => ?_
      refine (Onward.keeps_bestPath hp ht).bind fun p hp => rest [p, q] ps' ?_ hd
      refine ⟨fun h => absurd h he, fun _ => ⟨p, by simp, hp⟩, ?_⟩
      exact forall_mem_cons.mpr ⟨.inl hp, forall_mem_singleton.mpr (.inr ⟨hn, hq⟩)⟩

theorem begins_together (p : String) : begins "alle" (togetherTitle p) := by
  simp [begins, togetherTitle]

theorem isVariable_of_toldAlong {ps' : List Path} {u : Term} (hl : s₀.Led pivot target split led)
    (hd : Forall₂ (Extended s₀) ps ps') (hu : u ∈ toldAlong (led ++ ps')) : u.isVariable := by
  obtain ⟨p, hp, hu⟩ := mem_flatMap.mp hu
  cases mem_append.mp hp
  case inl hp =>
    obtain ⟨k, hk, hu⟩ := mem_flatMap.mp hu
    obtain ⟨_, _, hk⟩ := hl.ends p hp k hk
    exact isVariable_of_told (op?_of_elementKind hk) hu
  case inr hp =>
    obtain ⟨_, _, h⟩ := exists_of_mem_right hd hp
    exact (h.vars u (h.told ▸ hu)).isVariable

theorem toldAlong_of_beq (h : (ps.isEmpty || ps == [[]]) = true) : toldAlong ps = [] := by
  rcases ps with _ | ⟨_ | ⟨_, _⟩, _ | ⟨_, _⟩⟩
  case nil          => rfl
  case cons.nil.nil => rfl
  all_goals cases h

theorem mem_flatMap_told {u : Term} {zs us : List Term} (hn : zs ≠ [])
    (h : ∀ z ∈ zs, told z = us) : u ∈ zs.flatMap told ↔ u ∈ us := by
  obtain ⟨z, hz⟩ := exists_mem_of_ne_nil zs hn
  refine mem_flatMap.trans ⟨?_, fun hu => ⟨z, hz, h z hz ▸ hu⟩⟩
  rintro ⟨z, hz, hu⟩
  exact h z hz ▸ hu

-- What is aggregated tells variables and the selection. What it is aggregated over tells the ways
-- to the target and the split, the dimensions and the selection.
inductive TotalTells (s₀ : Session) (pivot target split selection : Term) (ps : List Path) :
    Term × List Path → Prop
  | nothing {ps'} : TotalTells s₀ pivot target split selection ps (.nothing, ps')
  | total {n v w ty led ps'} : (s₀.Led pivot target split led) →
    (Forall₂ (Extended s₀) ps ps') →
    (∀ u ∈ told v, u.isVariable ∨ u ∈ told selection) →
    (∀ u, u ∈ told w ↔ u ∈ toldAlong (led ++ ps') ++ told selection) →
      TotalTells s₀ pivot target split selection ps (.app n .aggregation [v, w] ty, ps')

theorem keeps_measured (ht : s₀.HasObjectType target)
    (hn : ∀ v ∈ numbers, ∀ u ∈ told v, u.isVariable) :
    Keeps (Onward s₀) (if numbers.isEmpty then counting target else pair numbers)
      fun v => ∀ u ∈ told v, u.isVariable := by
  refine .ite (fun _ => ?_) fun _ => ?_
  · refine (Onward.keeps_counting ht).imp ?_
    rintro k ⟨_, _, hk⟩ u hu
    exact isVariable_of_told (op?_of_elementKind hk) hu
  · refine (keeps_told_pair (onward_numbered s₀) numbers).imp fun v hv u hu => ?_
    obtain ⟨x, hx, hu⟩ := mem_flatMap.mp (hv ▸ hu)
    exact hn x hx u hu

theorem keeps_untold_together (ht : s₀.HasObjectType target) :
    Keeps (Onward s₀) (together target) fun w => told w = [] := by
  refine (Onward.keeps_together ht).imp ?_
  rintro w ⟨hwn, _, _, hw⟩
  rw [told_of_op? (op?_of_elementKind hw), if_neg]
  simp [isCountedVariable, hwn, begins_together]

theorem keeps_aggregated {b v z : Term} {ps' : List Path} {w? : Option Term}
    (hb : BreaksDown s₀ pivot target split selection ps led (b, ps'))
    (hv : ∀ u ∈ told v, u.isVariable ∨ u ∈ told selection) (hz : z ≠ .nothing → told z = told b)
    (hw : ∀ w, w? = some w → ∀ u, u ∈ told w ↔ u ∈ told b) :
    Keeps (Onward s₀) (aggregated v z ps' w?)
      (TotalTells s₀ pivot target split selection ps) := by
  have hI := onward_numbered s₀
  rw [aggregated.eq_def]
  split
  case h_1 => exact keeps_pure .nothing
  case h_2 =>
    refine (keeps_app hI .aggregation _).bind ?_
    rintro _ ⟨_, h⟩
    obtain ⟨-, _, -, rfl⟩ := apply_eq_ok.mp h
    exact keeps_pure (.total hb.ways hb.dims hv (hb.tells ▸ hw _ rfl))
  case h_3 hn =>
    refine keeps_ofExcept.bind fun _ _ => .ite (fun _ => ?_) fun _ => keeps_pure .nothing
    refine (keeps_told_compose hI _ _).bind fun x hx => (keeps_app hI .aggregation _).bind ?_
    rintro _ ⟨_, h⟩
    obtain ⟨-, _, -, rfl⟩ := apply_eq_ok.mp h
    refine keeps_pure (.total hb.ways hb.dims (fun u hu => ?_) (hb.tells ▸ hw _ rfl))
    refine (mem_append.mp (hx ▸ hu)).elim (hv u) fun hu => ?_
    have hu : u ∈ toldAlong (led ++ ps') ++ told selection := hb.tells ▸ hz hn ▸ hu
    exact (mem_append.mp hu).imp_left (isVariable_of_toldAlong hb.ways hb.dims)

theorem keeps_overDimensions {b w : Term} {ps' : List Path} {i : Nat}
    {f : Option Term → SessionM α} {Q : α → Prop}
    (hb : BreaksDown s₀ pivot target split selection ps led (b, ps'))
    (hw : told w = if pivot == target then told selection else told b)
    (hf : ∀ w?, (∀ w, w? = some w → ∀ u, u ∈ told w ↔ u ∈ told b) → Keeps (Onward s₀) (f w?) Q) :
    Keeps (Onward s₀) (overDimensions w b ps' i f) Q := by
  have hI := onward_numbered s₀
  refine .ite (fun hn => ?_) fun hn => ?_
  · refine (keeps_pure (P := (· = some w)) rfl).bind fun w? hw? => hf w? ?_
    rintro w' rfl u
    obtain rfl := Option.some.inj hw?
    have hwb : told w' = told b := by
      rw [hw]
      split
      case isTrue he => rw [hb.tells, hb.ways.direct he, nil_append, toldAlong_of_beq hn, nil_append]
      case isFalse   => rfl
    rw [hwb]
  refine .ite (fun _ => ?_) fun _ => ?_
  · exact (keeps_pure (P := (· = some b)) rfl).bind fun w? hw? => hf w? (by simp_all)
  refine (keeps_parts hI hb.tame).bind fun zs? hzs => ?_
  cases zs?
  case none    => exact (keeps_pure (P := (· = none)) rfl).bind fun w? hw? => hf w? (by simp [hw?])
  case some zs =>
    refine (keeps_told_pair hI zs).bind fun x hx => ?_
    refine (keeps_pure (P := (· = some x)) rfl).bind fun w? hw? => hf w? ?_
    rintro w' rfl u
    obtain rfl := Option.some.inj hw?
    obtain ⟨hlen, hzs⟩ := hzs zs rfl
    have hne : zs ≠ [] := by
      rintro rfl
      simp [length_eq_zero_iff.mp hlen.symm] at hn
    rw [hx, mem_flatMap_told hne fun z hz => (hzs z hz).left]

theorem keeps_totalTerm (hp : s₀.HasObjectType pivot) (ht : s₀.HasObjectType target)
    (hs : Tame selection) (hps : ∀ p ∈ ps, s₀.DimensionPath p)
    (hn : ∀ v ∈ numbers, ∀ u ∈ told v, u.isVariable) :
    Keeps (Onward s₀) (r.totalTerm pivot target ps numbers selection split)
      (TotalTells s₀ pivot target split selection ps) := by
  have hI := onward_numbered s₀
  unfold totalTerm
  refine (keeps_breakdown hp.ne_nothing ht.ne_nothing hs hps).bind ?_
  rintro ⟨b, ps'⟩ ⟨led, hb⟩
  refine Keeps.bind_ite (keeps_measured ht hn) fun v hv => ?_
  refine (keeps_untold_together ht).bind fun w hw => ?_
  refine Keeps.bind_ite (P := fun w => told w = if pivot == target then told selection else []) ?_
    fun w hw => ?_
  · refine .ite (fun h => (keeps_told_compose hI w selection).imp fun x hx => ?_) fun h =>
      keeps_pure ?_
    · rw [if_pos (Bool.and_eq_true_iff.mp h).left, hx, hw, nil_append]
    · rw [hw]
      split
      case isTrue he  => cases selection <;> simp_all
      case isFalse => rfl
  refine Keeps.bind_ite (P := fun v => ∀ u ∈ told v, u.isVariable ∨ u ∈ told selection) ?_
    fun v hv => ?_
  · refine .ite (fun _ => (keeps_told_compose hI v selection).imp fun x hx u hu => ?_) fun _ =>
      keeps_pure fun u hu => .inl (hv u hu)
    exact (mem_append.mp (hx ▸ hu)).imp_left (hv u)
  refine Keeps.bind_ite (P := fun z => if pivot == target then z = .nothing else told z = told b) ?_
    fun z hz => ?_
  · refine .ite (fun h => keeps_pure (by simp [h])) fun h =>
      (keeps_part hI hb.tame).imp fun z hz => ?_
    simpa [h] using hz.left
  refine Keeps.bind_ite (P := fun w => told w = if pivot == target then told selection else told b) ?_
    fun w hw => ?_
  · refine .ite (fun h => keeps_pure (by simpa [h] using hw)) fun h =>
      (keeps_told_compose hI w z).imp fun x hx => ?_
    simp_all
  refine keeps_overDimensions hb hw fun w? hw => keeps_aggregated hb hv (fun hn => ?_) hw
  split at hz
  case isTrue  => exact absurd hz hn
  case isFalse => exact hz

end Requests

end Explanation
end Inquiry
