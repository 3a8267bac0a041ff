import Mathlib
import Inquiry.Proofs.Request.Dimensions
import Inquiry.Proofs.Session.Faithful

/-!
Conditions on the pivot itself. The path to a constant ends in the variable that the constant is a
value of. If that is a variable of the pivot, nothing else is needed, but where a way leads from the
pivot back to it, the path goes round that way.
-/

namespace Inquiry

open List Term Session Meaning

def Term.hasValuesIn (t g : Term) : Bool :=
  t.isVariable && t.goal.toOption.any (· == g)

-- The variable that a constant of `g` is a value of: the last one among its clues, or else the one
-- that is preferred.
def Session.variableTold (s : Session) (g : Term) (ms : List Meaning) : Option Term :=
  ((ms.map asTerm).filter (·.hasValuesIn g)).getLast?.or (s.preferred.get? g)

namespace SessionM

variable {s s' : Session} {t u : Term} {clues : List Term} {hint p : Path} {ps : List Path}

theorem gives_ofExcept_bind {e : Except Failure α} {a : α} {f : α → SessionM β} {b : β}
    (he : e = .ok a) : (ofExcept e >>= f).Gives s b s' ↔ (f a).Gives s b s' := by
  simp [gives_ofExcept_bind_iff, he]

theorem ne_nil_of_paths (h : (paths t u).Gives s ps s') : ∀ p ∈ ps, p ≠ [] := by
  by_cases hn : t = .nothing ∨ u = .nothing
  case pos =>
    have he : paths t u = pure [] := by
      rcases hn with rfl | rfl
      case inl => rfl
      case inr => cases t <;> rfl
    rw [he] at h
    obtain ⟨rfl, _⟩ := gives_pure.mp h
    simp
  case neg =>
    have he : paths t u = pathsNamed t.printed u.printed := by
      cases t <;> cases u <;> simp_all [paths]
    rw [he] at h
    replace h := gives_get_bind.mp h
    have hall := h.mapM_forall₂ (R := fun _ p => p ≠ []) fun trail ht p s s' hp => by
      obtain ⟨v, _, htr⟩ := Graph.trail_of_mem_trails ht
      obtain ⟨ks, hks, rfl⟩ := gives_bind_pure.mp hp
      have hlen := (hks.mapM_forall₂ (R := fun _ _ => True) fun _ _ _ _ _ _ => trivial).length_eq
      cases htr <;> cases ks <;> simp_all
    intro p hp
    obtain ⟨_, _, hne⟩ := exists_of_mem_right hall hp
    exact hne

theorem bestPath_eq_nil_iff (h : (bestPath t u clues hint).Gives s p s')
    (ht : t = .nothing → u = .nothing) : p = [] ↔ ¬s.graph.LeadsTo t u := by
  obtain ⟨ps, s₁, hps, h⟩ := gives_bind.mp h
  replace h := gives_get_bind.mp h
  obtain ⟨hb, _⟩ := gives_ofExcept.mp h
  have hr : ps ≠ [] ↔ s.graph.LeadsTo t u := by
    by_cases hu : u = .nothing
    case pos =>
      have he : paths t u = pure [] := by cases t <;> simp [hu, paths]
      rw [he] at hps
      obtain ⟨rfl, _⟩ := gives_pure.mp hps
      simp [Graph.LeadsTo, hu]
    case neg => rw [paths_ne_nil_iff (mt ht hu) hu hps, Graph.LeadsTo, and_iff_right hu]
  rw [← hr, not_not]
  constructor
  · rintro rfl
    by_contra hn
    exact ne_nil_of_paths hps [] ((Path.mem_of_best hb).resolve_right (hn ·.right)) rfl
  · rintro rfl
    exact (Except.ok.inj hb).symm

end SessionM

namespace Request

open SessionM

variable {r : Request} {s s' : Session} {pivot target v : Term} {hints : Assoc Int Path} {k : Int}
  {ms : List Meaning} {p : Path}

-- The constant at place `k`, of which `ms` are the clues, is a value of the variable `v`.
def Tells (r : Request) (s : Session) (k : Int) (ms : List Meaning) (v : Term) : Prop :=
  ∃ m g, r.meaning k = .ok m ∧ m.goal = .ok g ∧ s.variableTold g ms = some v

theorem exists_goal_of_isVariable {t : Term} (h : t.isVariable) : ∃ c, t.goal = .ok c := by
  cases t <;> simp only [isVariable, hasClass, cls?, beq_iff_eq, Option.some.injEq,
    reduceCtorEq] at h
  simp [Term.goal, Term.codomain?, KindClass.isElement, h, KindClass.isType, Functor.map,
    Except.map]

theorem ne_nothing_of_hasValuesIn {t g : Term} (h : t.hasValuesIn g) : t ≠ .nothing := by
  rintro rfl
  simp [hasValuesIn, isVariable, hasClass, cls?] at h

theorem variableAmong_eq (g : Term) (ms : List Meaning) : variableAmong (.ok g) ms =
    .ok (((ms.map asTerm).filter (·.hasValuesIn g)).getLast?.getD .nothing,
      (ms.map asTerm).filter (!·.hasValuesIn g)) := by
  induction ms
  case nil => rfl
  case cons m ms ih =>
    rw [variableAmong, ih]
    by_cases hv : m.asTerm.isVariable
    case neg =>
      have ho : m.asTerm.hasValuesIn g = false := by simp [hasValuesIn, hv]
      simp [hv, ho, pure, Except.pure]
    case pos =>
      obtain ⟨c, hc⟩ := exists_goal_of_isVariable hv
      have ho : m.asTerm.hasValuesIn g = (c == g) := by
        simp [hasValuesIn, hv, hc, Except.toOption]
      simp only [hv, if_true, Meaning.goal, hc, ok_bind]
      by_cases he : c == g
      case neg => simp [ho, he, pure, Except.pure]
      case pos =>
        simp only [pure, Except.pure, ok_bind, he, if_true, map_cons, ho, Bool.not_true,
          filter_cons, Bool.false_eq_true, if_false, getLast?_cons, Option.getD_some]
        cases hl : ((ms.map asTerm).filter (·.hasValuesIn g)).getLast?
        case none => simp
        case some v =>
          have hv := (mem_filter.mp (mem_of_getLast? hl)).right
          cases v <;> first | rfl | exact absurd rfl (ne_nothing_of_hasValuesIn hv)

theorem gives_pathToVariable {clues : List Term} {hint : Path} : Gives (do
      let dest ← ofExcept v.source
      return v :: (← bestPath pivot dest clues hint)) s p s' ↔
    ∃ d way, v.source = .ok d ∧ (bestPath pivot d clues hint).Gives s way s' ∧ p = v :: way := by
  constructor
  · intro h
    obtain ⟨d, hd, h⟩ := gives_ofExcept_bind_iff.mp h
    obtain ⟨way, hway, rfl⟩ := gives_bind_pure.mp h
    exact ⟨d, way, hd, hway, rfl⟩
  · rintro ⟨d, way, hd, hway, rfl⟩
    exact Gives.ofExcept_bind hd (hway.bind gives_done)

theorem Tells.gives_path_iff (h : r.Tells s k ms v) (pivot target : Term) (hints : Assoc Int Path) :
    ∃ clues hint, clues ⊆ ms.map asTerm ++ [target] ∧ ∀ p s',
      (r.constantPath pivot target hints k ms).Gives s p s' ↔ ∃ d way,
        v.source = .ok d ∧ (bestPath pivot d clues hint).Gives s way s' ∧ p = v :: way := by
  obtain ⟨m, g, hm, hg, hv⟩ := h
  refine ⟨if pivot == target then (ms.map asTerm).filter (!·.hasValuesIn g) else
    (ms.map asTerm).filter (!·.hasValuesIn g) ++ [target], ((hints.get? k).getD []).tail,
    by grind, fun p s' => ?_⟩
  rw [constantPath, gives_ofExcept_bind hm, hg, gives_ofExcept_bind (variableAmong_eq g ms),
    ← gives_pathToVariable]
  cases hl : ((ms.map asTerm).filter (·.hasValuesIn g)).getLast?
  case none =>
    have hv : s.preferred.get? g = some v := by simpa [variableTold, hl] using hv
    dsimp only [Option.getD_none]
    constructor
    · intro h
      replace h := gives_get_bind.mp h
      rw [gives_ofExcept_bind rfl, hv] at h
      exact h
    · intro h
      refine gives_get_bind.mpr ?_
      rw [gives_ofExcept_bind rfl, hv]
      exact h
  case some u =>
    obtain rfl : u = v := by simpa [variableTold, hl] using hv
    have hn := ne_nothing_of_hasValuesIn (mem_filter.mp (mem_of_getLast? hl)).right
    dsimp only [Option.getD_some]
    split
    case h_1 => exact absurd rfl hn
    case h_2 => rfl

-- All of the clues, and the variable that they tell, are of the graph.
def WellTold (r : Request) (s : Session) (k : Int) (ms : List Meaning) : Prop :=
  (∃ v d, r.Tells s k ms v ∧ v.source = .ok d ∧ s.HasObjectType d) ∧ ∀ m ∈ ms, m.asTerm.IsClue

theorem Tells.of_preferred_eq (h : r.Tells s k ms v) (he : s'.preferred = s.preferred) :
    r.Tells s' k ms v := by
  obtain ⟨m, g, hm, hg, hv⟩ := h
  exact ⟨m, g, hm, hg, by rwa [variableTold, he]⟩

theorem WellTold.yields_path (h : r.WellTold s k ms) (hs : s.Consistent) (hp : s.HasObjectType pivot)
    (ht : s.HasObjectType target) (hints : Assoc Int Path) :
    (r.constantPath pivot target hints k ms).Yields s fun _ => True := by
  obtain ⟨⟨v, d, hv, hd, ho⟩, hms⟩ := h
  obtain ⟨clues, hint, hsub, hpath⟩ := hv.gives_path_iff pivot target hints
  have hclues : ∀ clue ∈ clues, clue.IsClue := by
    intro clue hc
    rcases mem_append.mp (hsub hc) with hc | hc
    case inl =>
      obtain ⟨m, hm, rfl⟩ := mem_map.mp hc
      exact hms m hm
    case inr =>
      obtain rfl := mem_singleton.mp hc
      exact .inl ht.typeKind
  have hway : (bestPath pivot d clues hint).Yields s fun _ => True := by
    by_cases hr : s.graph.trails pivot.printed d.printed = []
    case pos => exact (yields_bestPath_nil clues hint hs hp ho hr).imp fun _ _ => trivial
    case neg => exact (yields_bestPath hs hp ho hr hclues).imp fun _ _ => trivial
  obtain ⟨way, s', hway, hl, hs', _⟩ := hway
  exact ⟨v :: way, s', (hpath _ _).mpr ⟨d, way, hd, hway, rfl⟩, hl, hs', trivial⟩

-- What the search reads of a session, apart from what is known.
def Unmoved (s s' : Session) : Prop :=
  s'.graph = s.graph ∧ s'.preferred = s.preferred

theorem steers_unmoved (s : Session) : Session.Steers (Unmoved s) where
  numbered := fun _ h => h
  missing  := fun _ _ h => h
  new      := fun _ _ _ h _ => h

-- A path of a constant on the pivot is its variable, and then the best way round.
def GoesRound (r : Request) (s : Session) (pivot : Term) (e : Int × List Meaning)
    (p : Int × Path) : Prop :=
  p.1 = e.1 ∧ ∀ v, r.Tells s e.1 e.2 v → v.source = .ok pivot →
    ∃ way, p.2 = v :: way ∧ (way = [] ↔ ¬s.graph.LeadsTo pivot pivot)

theorem keeps_goesRound (r : Request) (s : Session) (pivot target : Term) (hints : Assoc Int Path)
    (e : Int × List Meaning) : Keeps (Unmoved s)
      (do return (e.1, ← r.constantPath pivot target hints e.1 e.2)) (r.GoesRound s pivot e) := by
  intro s₁ hs₁
  have hk : Keeps (Unmoved s) (do return (e.1, ← r.constantPath pivot target hints e.1 e.2))
      fun _ => True :=
    ((steers_unmoved s).keeps_constantPath r pivot target hints e.1 e.2).bind fun _ _ => keeps_done
  refine ⟨(hk s₁ hs₁).left, fun p hp => ?_⟩
  obtain ⟨path, s₂, hpath, h⟩ := gives_bind.mp (Prod.ext hp rfl)
  obtain ⟨rfl, _⟩ := gives_pure.mp h
  refine ⟨rfl, fun v hv hd => ?_⟩
  obtain ⟨clues, hint, _, hiff⟩ := (hv.of_preferred_eq hs₁.right).gives_path_iff pivot target hints
  obtain ⟨d, way, hd', hway, rfl⟩ := (hiff _ _).mp hpath
  obtain rfl := Except.ok.inj (hd.symm.trans hd')
  exact ⟨way, rfl, hs₁.left ▸ bestPath_eq_nil_iff hway id⟩

theorem exists_pathsByClues {ms : Assoc Int (List Meaning)} (hs : s.Consistent)
    (hp : s.HasObjectType pivot) (ht : s.HasObjectType target)
    (hms : ∀ e ∈ ms, r.WellTold s e.1 e.2) (hints : Assoc Int Path) :
    ∃ ps s', (r.pathsByClues ms pivot target hints).Gives s ps s' := by
  obtain ⟨ps, s', h, _⟩ := exists_mapM (s := s)
      (I := fun s₁ => s.Later s₁ ∧ s₁.Consistent ∧ Unmoved s s₁)
      (f := fun (e : Int × List Meaning) => do
        return (e.1, ← r.constantPath pivot target hints e.1 e.2))
      (fun e (he : e ∈ ms) s₁ hs₁ => by
        obtain ⟨hl, hc, ha⟩ := hs₁
        obtain ⟨⟨v, d, hv, hd, ho⟩, hclues⟩ := hms e he
        have htold : r.WellTold s₁ e.1 e.2 :=
          ⟨⟨v, d, hv.of_preferred_eq ha.right, hd, ho.later hl⟩, hclues⟩
        obtain ⟨p, s₂, hpath, hl₂, hc₂, _⟩ :=
          htold.yields_path hc (hp.later hl) (ht.later hl) hints
        have ha₂ := ((steers_unmoved s).keeps_constantPath r pivot target hints e.1 e.2).gives ha hpath
        exact ⟨_, s₂, hpath.bind gives_done, hl.trans hl₂, hc₂, ha₂⟩)
      ⟨.refl s, hs, rfl, rfl⟩
  exact ⟨ps, s', h⟩

theorem pathTo_direct (clues : List Term) (ht : s.HasObjectType target)
    (hv : v.domain = .ok target) : (pathTo clues target v).Gives s [v] s := by
  have he : target.isEqualTo target = .ok true := by
    rw [isEqualTo_of_role ht.typeKind.isType.role, ht.typeKind.isType.whole]
  refine (gives_ofExcept_bind hv).mpr ((gives_ofExcept_bind he).mpr ?_)
  exact gives_done

-- A condition on a variable of the pivot is asked of the pivot itself exactly if no way leads from
-- the pivot back to it. The path to a variable of the target is always direct.
theorem direct_iff_no_roundTrip (r : Request) (s : Session) (ms : Assoc Int (List Meaning))
    (pivot target : Term) (hints : Assoc Int Path) :
    (∀ ps s', (r.pathsByClues ms pivot target hints).Gives s ps s' →
      List.Forall₂ (r.GoesRound s pivot) ms ps) ∧
    (s.Consistent → s.HasObjectType pivot → s.HasObjectType target →
      (∀ e ∈ ms, r.WellTold s e.1 e.2) →
        ∃ ps s', (r.pathsByClues ms pivot target hints).Gives s ps s') ∧
    ∀ clues v, s.HasObjectType target → v.domain = .ok target →
      (pathTo clues target v).Gives s [v] s := by
  refine ⟨fun ps s' h => ?_, fun hs hp ht hms => exists_pathsByClues hs hp ht hms hints,
    fun clues v ht hv => pathTo_direct clues ht hv⟩
  have hk := keeps_mapM_forall₂ fun e (_ : e ∈ ms) => keeps_goesRound r s pivot target hints e
  exact (hk s ⟨rfl, rfl⟩).right ps (congrArg Prod.fst h)

namespace Families

open Path.Dwellings (type element)

def person  := type 1 .objectType "persoon"
def genders := type 2 .phenomenon "geslachten"
def amount  := type 3 .quantity "getal"
def gender  := element 4 .variable "geslacht" person genders
def man     := element 6 .constant "man" .one genders

def graph : Graph where
  nodes := #[⟨"persoon", "ObjectType", none⟩, ⟨"geslachten", "Phenomenon", none⟩]
  edges := #[
    { name := "vader", sort := "ObjectTypeRelation", source := 0, target := 0,
      domain := ⟨"persoon", "ObjectType"⟩, codomain := ⟨"persoon", "ObjectType"⟩ },
    { name := "geslacht", sort := "Variable", source := 0, target := 1,
      domain := ⟨"persoon", "ObjectType"⟩, codomain := ⟨"geslachten", "Phenomenon"⟩ }]

def fresh : Session where
  next      := 8
  graph     := graph
  number    := amount
  known     := (({} : Std.HashMap String Term).insert "1" .one).insert "getal" amount
  preferred := [(genders, gender)]

def session : Session := fresh.know "persoon" person

def men : Request where
  meanings := [.term man]
  keywords := [Keyword.constant]

theorem graph_consistent : graph.Consistent := by
  refine Graph.consistent_of_heads (by decide) (by decide) (by decide) ?_ ?_ (by simp [graph])
    (by simp [graph])
  · simp [graph]
    decide
  · simp [graph]
    decide

theorem person_typeKind : person.TypeKind := ⟨_, _, _, _, _, rfl, rfl⟩

theorem session_consistent : session.Consistent := by
  have hf : fresh.Consistent :=
    consistent_of_fresh graph_consistent ⟨_, _, _, _, _, rfl, rfl⟩ rfl (by decide)
  exact hf.know (by simp [fresh]) (hf.fits_node (v := ⟨"persoon", "ObjectType", none⟩)
    (by simp [fresh, graph]) person_typeKind)

theorem hasObjectType_person : session.HasObjectType person :=
  ⟨rfl, known_know ..⟩

theorem tells_gender : men.Tells session 0 [] gender :=
  ⟨_, _, rfl, rfl, by cbv⟩

theorem leadsTo_person : session.graph.LeadsTo person person := by
  refine ⟨hasObjectType_person.ne_nothing, ?_⟩
  rw [Graph.Reaches]
  decide

theorem wellTold_men : ∀ e ∈ [((0 : Int), ([] : List Meaning))], men.WellTold session e.1 e.2 := by
  simp only [mem_singleton, forall_eq]
  exact ⟨⟨gender, person, tells_gender, rfl, hasObjectType_person⟩, by simp⟩

end Families

open Families in
-- Persons are asked for a father who is a man, where they should be men themselves.
theorem men_by_father : session.Consistent ∧ session.HasObjectType person ∧
    men.Tells session 0 [] gender ∧ gender.source = .ok person ∧
    session.graph.LeadsTo person person ∧ ∃ way s', way ≠ [] ∧
      (men.pathsByClues [(0, [])] person person []).Gives session [(0, gender :: way)] s' := by
  obtain ⟨direct, gives, _⟩ := direct_iff_no_roundTrip men session [(0, [])] person person []
  obtain ⟨ps, s', h⟩ :=
    gives session_consistent hasObjectType_person hasObjectType_person wellTold_men
  obtain ⟨p, _, hp, hps, rfl⟩ := List.forall₂_cons_left_iff.mp (direct ps s' h)
  obtain rfl := List.forall₂_nil_left_iff.mp hps
  obtain ⟨hk, hp⟩ := hp
  obtain ⟨way, hpath, hway⟩ := hp gender tells_gender rfl
  refine ⟨session_consistent, hasObjectType_person, tells_gender, rfl, leadsTo_person, way, s',
    fun hn => hway.mp hn leadsTo_person, ?_⟩
  rwa [show p = (0, gender :: way) from Prod.ext hk hpath] at h

end Request
end Inquiry
