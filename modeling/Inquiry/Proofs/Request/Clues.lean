import Mathlib
import Inquiry.Proofs.Request.Dimensions
import Inquiry.Proofs.Session.Settling

/-!
The clues that point at the path of a dimension. All dimensions share some clues, and each of them
has clues of its own. A dimension is also told by the clues of those before it, which makes no
difference as long as they tell the same of every path.
-/

namespace Inquiry

open List Session Meaning

theorem Assoc.get?_put [BEq κ] [LawfulBEq κ] [DecidableEq κ] (m : Assoc κ α) (k l : κ) (a : α) :
    (m.put k a).get? l = if k = l then some a else m.get? l := by
  induction m
  case nil => by_cases h : k = l <;> simp [put, get?, h]
  case cons e m ih =>
    obtain ⟨j, b⟩ := e
    simp only [get?] at ih ⊢
    by_cases hj : j = k
    case pos =>
      subst hj
      by_cases hl : j = l <;> simp [put, hl]
    case neg =>
      by_cases hl : j = l
      case pos =>
        subst hl
        simp [put, hj, Ne.symm hj]
      case neg => simp [put, hj, hl, ih]

namespace Path

variable {s s' : Session} {clues clues' : List Term} {hint b : Path} {ps : List Path} {c : Nat}

-- The choice does not change if the same is added to the scores of all paths.
theorem bestFrom_shift {n : Option Nat}
    (h : ∀ p ∈ ps, score s' clues' p = (· + c) <$> score s clues p) :
    bestFrom s' clues' hint ps (n.map (· + c)) b = bestFrom s clues hint ps n b := by
  induction ps generalizing n b
  case nil => rfl
  case cons p ps ih =>
    have ⟨hp, hps⟩ := forall_mem_cons.mp h
    have next (k : Nat) (b : Path) : bestFrom s' clues' hint ps (some (k + c)) b =
        bestFrom s clues hint ps (some k) b := ih (n := some k) hps
    simp only [bestFrom, hp]
    split
    case isTrue => rfl
    case isFalse =>
      cases score s clues p
      case error f => rfl
      case ok k =>
        cases n
        case none   => exact next k p
        case some n => simp [next]

theorem best_shift (h : ∀ p ∈ ps, score s' clues' p = (· + c) <$> score s clues p) :
    best s' ps clues' hint = best s ps clues hint :=
  bestFrom_shift (n := none) h

end Path

theorem Session.Follows.best_eq {s s' : Session} (h : s.Follows s') (ps : List Path)
    (clues : List Term) (hint : Path) : Path.best s' ps clues hint = Path.best s ps clues hint := by
  refine Path.best_shift (c := 0) fun p _ => ?_
  rw [h.rest]
  simp
  rfl

theorem SessionM.settles_bestPath (t u : Term) (clues : List Term) (hint : Path) :
    (bestPath t u clues hint).Settles :=
  (settles_paths t u).bind fun ps => settles_get (g := fun s => Path.best s ps clues hint)
    (fun _ => settles_ofExcept) fun _ _ hs => hs.best_eq ps clues hint

namespace Request

open Keyword SessionM

variable {r : Request} {s s' : Session} {pivot target ignored : Term} {hints : Assoc Nat Path}
  {d : Nat × Nat} {found found' : DimensionPaths} {shared : List Meaning}

-- Where the path of the dimension at place `i` ends.
def destination (r : Request) (i : Nat) : Except Failure Meaning := do
  let m ← r.meaning i
  if (← r.keyword i) == objectType then return m else return .term (← m.goal)

-- What stands at the place that is noted with a dimension, if it is not its own.
def leadingClues (r : Request) (d : Nat × Nat) : Except Failure (List Meaning) :=
  if d.1 == d.2 then return [] else return [← r.meaning d.2]

-- The clues of a dimension itself: what leads to it, and the dimension, unless it is an object type.
def ownClues (r : Request) (d : Nat × Nat) : Except Failure (List Meaning) := do
  let m ← r.meaning d.1
  let k ← r.keyword d.1
  return (← r.leadingClues d) ++ if k == objectType then [] else [m]

-- The path that some clues choose for the dimension at place `i`.
def chosenPath (r : Request) (pivot : Term) (hints : Assoc Nat Path) (i : Nat)
    (clues : List Meaning) : SessionM Path := do
  let dest ← ofExcept (r.destination i)
  bestPath pivot dest.asTerm (clues.map asTerm) (dimensionHint hints i)

-- What a step does with the destination and the own clues of a dimension.
structure StepsTo (r : Request) (pivot ignored : Term) (hints : Assoc Nat Path) (d : Nat × Nat)
    (found found' : DimensionPaths) (s s' : Session) (dest : Meaning) (own : List Meaning) :
    Prop where
  ends   : r.destination d.1 = .ok dest
  tells  : r.ownClues d = .ok own
  clues  : found'.clues = found.clues ++ own
  passed : (dest == .term ignored) = true → found'.at_ = found.at_ ∧ s' = s
  noted  : (dest == .term ignored) = false → ∃ p, found'.at_ = found.at_.put d.1 p ∧
    (r.chosenPath pivot hints d.1 found'.clues).Gives s p s'

theorem stepsTo_of_choice {dest : Meaning} {own : List Meaning}
    (hdest : r.destination d.1 = .ok dest) (hown : r.ownClues d = .ok own)
    (h : Gives (if dest == .term ignored then pure { found with clues := found.clues ++ own }
      else do
        let p ← bestPath pivot dest.asTerm ((found.clues ++ own).map asTerm)
          (dimensionHint hints d.1)
        pure (DimensionPaths.mk (found.clues ++ own) (p.insertWithoutPostfixes found.paths)
          (found.at_.put d.1 p))) s found' s') :
    r.StepsTo pivot ignored hints d found found' s s' dest own := by
  split at h
  case isTrue hi =>
    obtain ⟨rfl, rfl⟩ := gives_pure.mp h
    exact ⟨hdest, hown, rfl, fun _ => ⟨rfl, rfl⟩, fun hn => by simp [hi] at hn⟩
  case isFalse hi =>
    obtain ⟨p, hp, rfl⟩ := gives_bind_pure.mp h
    refine ⟨hdest, hown, rfl, fun hn => absurd hn hi, fun _ => ⟨p, rfl, ?_⟩⟩
    exact Gives.ofExcept_bind hdest hp

theorem addDimension_stepsTo (h : (r.addDimension pivot ignored hints found d).Gives s found' s') :
    ∃ dest own, r.StepsTo pivot ignored hints d found found' s s' dest own := by
  obtain ⟨i, led⟩ := d
  obtain ⟨m, hm, h⟩ := gives_ofExcept_bind_iff.mp h
  have read (leading : List Meaning) (hl : r.leadingClues (i, led) = .ok leading) (h : Gives (do
          let k ← ofExcept (r.keyword i)
          let clues := found.clues ++ leading
          let e ← do
            if k == objectType then pure (m, clues)
            else pure (term (← ofExcept m.goal), clues ++ [m])
          if e.1 == .term ignored then return { found with clues := e.2 }
          let p ← bestPath pivot e.1.asTerm (e.2.map asTerm) (dimensionHint hints i)
          return { clues := e.2, paths := Path.insertWithoutPostfixes p found.paths,
                   at_ := found.at_.put i p }) s found' s') :
      ∃ dest own, r.StepsTo pivot ignored hints (i, led) found found' s s' dest own := by
    obtain ⟨k, hk, h⟩ := gives_ofExcept_bind_iff.mp h
    by_cases ho : k = objectType
    case pos =>
      subst ho
      refine ⟨m, leading, stepsTo_of_choice ?_ ?_ h⟩
      · simp [destination, hm, hk]
      · simp [ownClues, hm, hk, hl]
    case neg =>
      have hob : (k == objectType) = false := by simpa using ho
      simp only [hob, Bool.false_eq_true, if_false] at h
      obtain ⟨g, hg, h⟩ := gives_ofExcept_bind_iff.mp h
      refine ⟨.term g, leading ++ [m], stepsTo_of_choice ?_ ?_ (by simpa using h)⟩
      · simp [destination, hm, hk, ho, hg]
      · simp [ownClues, hm, hk, ho, hl]
  by_cases hne : i = led
  case pos =>
    subst hne
    simp only [bne_self_eq_false, Bool.false_eq_true, if_false] at h
    exact read [] (by simp [leadingClues]) h
  case neg =>
    have hnb : (i != led) = true := by simpa using hne
    simp only [hnb, if_true] at h
    obtain ⟨leading, _, hl, h⟩ := gives_bind.mp h
    obtain ⟨n, hn, hl⟩ := gives_ofExcept_bind_iff.mp hl
    obtain ⟨rfl, rfl⟩ := gives_pure.mp hl
    exact read [n] (by simp [leadingClues, hne, hn]) h

theorem settles_chosenPath (r : Request) (pivot : Term) (hints : Assoc Nat Path) (i : Nat)
    (clues : List Meaning) : (r.chosenPath pivot hints i clues).Settles :=
  settles_ofExcept.bind fun _ => settles_bestPath _ _ _ _

theorem chosenPath_shift {dest : Meaning} {i c : Nat} {clues clues' : List Meaning} {p : Path}
    {qs : List Path} (hd : r.destination i = .ok dest)
    (hqs : (paths pivot dest.asTerm).Gives s qs s)
    (hc : ∀ q ∈ qs, Path.score s (clues'.map asTerm) q =
      (· + c) <$> Path.score s (clues.map asTerm) q)
    (h : (r.chosenPath pivot hints i clues').Gives s p s) :
    (r.chosenPath pivot hints i clues).Gives s p s := by
  obtain ⟨dest', hd', h⟩ := gives_ofExcept_bind_iff.mp h
  obtain rfl : dest = dest' := Except.ok.inj (hd.symm.trans hd')
  replace h := hqs.bind_iff.mp h
  replace h := gives_get_bind.mp h
  obtain ⟨h, _⟩ := gives_ofExcept.mp h
  refine Gives.ofExcept_bind hd (Gives.bind hqs ?_)
  refine gives_get_bind.mpr (gives_ofExcept.mpr ⟨?_, rfl⟩)
  rw [← h, Path.best_shift hc]

-- What is recorded for the dimension `d`, which comes after the dimensions `before`.
def Recorded (r : Request) (pivot ignored : Term) (hints : Assoc Nat Path) (shared : List Meaning)
    (s : Session) (at_ : Assoc Nat Path) (before : Assoc Nat Nat) (d : Nat × Nat) : Prop :=
  ∃ dest earlier own, r.destination d.1 = .ok dest ∧ before.mapM r.ownClues = .ok earlier ∧
    r.ownClues d = .ok own ∧ if dest == .term ignored then at_.get? d.1 = none else
      ∃ p, at_.get? d.1 = some p ∧
        (r.chosenPath pivot hints d.1 (shared ++ earlier.flatten ++ own)).Gives s p s

-- The state of the search after the dimensions `done`.
structure Searched (r : Request) (pivot ignored : Term) (hints : Assoc Nat Path)
    (shared : List Meaning) (done : Assoc Nat Nat) (s : Session) (found : DimensionPaths) :
    Prop where
  clues    : ∃ own, done.mapM r.ownClues = .ok own ∧ found.clues = shared ++ own.flatten
  recorded : ∀ before d after, done = before ++ d :: after →
    r.Recorded pivot ignored hints shared s found.at_ before d
  keys     : ∀ i, i ∉ done.map (·.1) → found.at_.get? i = none

namespace StepsTo

variable {found found' : DimensionPaths} {dest : Meaning} {own : List Meaning}

theorem get?_of_ne (h : r.StepsTo pivot ignored hints d found found' s s' dest own) {i : Nat}
    (hi : i ≠ d.1) : found'.at_.get? i = found.at_.get? i := by
  cases hg : (dest == .term ignored)
  case true => rw [(h.passed hg).left]
  case false =>
    obtain ⟨p, hat, _⟩ := h.noted hg
    rw [hat, Assoc.get?_put, if_neg hi.symm]

theorem follows (h : r.StepsTo pivot ignored hints d found found' s s' dest own) :
    s.Follows s' := by
  cases hg : (dest == .term ignored)
  case true => exact (h.passed hg).right ▸ .refl s
  case false =>
    obtain ⟨p, _, hp⟩ := h.noted hg
    exact (settles_chosenPath _ _ _ _ _ _ _ _ hp).left

theorem recorded {before : Assoc Nat Nat} {shared : List Meaning} {earlier : List (List Meaning)}
    (h : r.StepsTo pivot ignored hints d found found' s s' dest own)
    (hearlier : before.mapM r.ownClues = .ok earlier)
    (hclues : found.clues = shared ++ earlier.flatten) (hnew : found.at_.get? d.1 = none) :
    r.Recorded pivot ignored hints shared s' found'.at_ before d := by
  refine ⟨dest, earlier, own, h.ends, hearlier, h.tells, ?_⟩
  split
  case isTrue hg => rw [(h.passed hg).left, hnew]
  case isFalse hg =>
    obtain ⟨p, hat, hp⟩ := h.noted (by simpa using hg)
    rw [h.clues, hclues] at hp
    refine ⟨p, by rw [hat, Assoc.get?_put, if_pos rfl], ?_⟩
    exact (settles_chosenPath _ _ _ _ _ _ _ _ hp).right s' (.refl s')

end StepsTo

theorem Recorded.later {at_ at' : Assoc Nat Path} {before : Assoc Nat Nat}
    (h : r.Recorded pivot ignored hints shared s at_ before d) (hs : s.Follows s')
    (hat : at'.get? d.1 = at_.get? d.1) :
    r.Recorded pivot ignored hints shared s' at' before d := by
  obtain ⟨dest, earlier, own, hdest, hearlier, hown, h⟩ := h
  refine ⟨dest, earlier, own, hdest, hearlier, hown, ?_⟩
  rw [hat]
  split at h
  case isTrue hg => rwa [if_pos hg]
  case isFalse hg =>
    rw [if_neg hg]
    obtain ⟨p, hp, hc⟩ := h
    exact ⟨p, hp, (settles_chosenPath _ _ _ _ _ _ _ _ hc).right s' hs⟩

theorem Searched.step {done : Assoc Nat Nat}
    (h : r.Searched pivot ignored hints shared done s found) (hd : d.1 ∉ done.map (·.1))
    (hs : (r.addDimension pivot ignored hints found d).Gives s found' s') :
    r.Searched pivot ignored hints shared (done ++ [d]) s' found' := by
  obtain ⟨dest, own, hstep⟩ := addDimension_stepsTo hs
  obtain ⟨earlier, hearlier, hclues⟩ := h.clues
  refine ⟨?_, fun before e after he => ?_, fun i hi => ?_⟩
  · refine ⟨earlier ++ [own], ?_, ?_⟩
    · simp [mapM_append, hearlier, hstep.tells]
    · simp [hstep.clues, hclues]
  · -- The dimension is either the new one or one of those before it.
    obtain rfl | ⟨after, x, rfl⟩ := eq_nil_or_concat after
    case inl =>
      obtain ⟨rfl, hde⟩ := append_inj' he rfl
      obtain rfl : d = e := singleton_inj.mp hde
      exact hstep.recorded hearlier hclues (h.keys d.1 hd)
    case inr =>
      have he : done ++ [d] = (before ++ e :: after) ++ [x] := by simpa using he
      obtain ⟨rfl, _⟩ := append_inj' he rfl
      have hne : e.1 ≠ d.1 := by
        intro h
        simp [← h] at hd
      exact (h.recorded before e after rfl).later hstep.follows (hstep.get?_of_ne hne)
  · simp only [map_append, mem_append, not_or] at hi
    rw [hstep.get?_of_ne fun h => hi.right (by simp [h])]
    exact h.keys i hi.left

theorem searched_dimensions {dims : Assoc Nat Nat}
    (hd : dims.Pairwise fun d d' => d.1 < d'.1)
    (h : (dims.foldlM (r.addDimension pivot ignored hints) { clues := shared }).Gives s found s') :
    r.Searched pivot ignored hints shared dims s' found := by
  refine h.foldlM (J := r.Searched pivot ignored hints shared) ?_ ?_
  · exact ⟨⟨[], rfl, by simp⟩, by simp, fun _ _ => rfl⟩
  · intro done d rest s found found' s' he hj hs
    refine hj.step ?_ hs
    have := (pairwise_append.mp (he ▸ hd)).right.right
    intro hm
    obtain ⟨e, hem, hed⟩ := mem_map.mp hm
    exact absurd (this e hem d (by simp)) (by omega)

-- Each dimension is recorded with the path that is chosen by the clues of all dimensions, those of
-- the dimensions before it and its own, unless it ends in what is ignored. Its own clues choose the
-- same path if the clues of the dimensions before it add the same to the scores of all paths.
theorem dimensionPaths_chosen {ps : List Path} {at_ : Assoc Nat Path}
    (h : (r.dimensionPaths pivot target ignored hints).Gives s (ps, at_) s') :
    ∃ dims s₁ shared, (r.dimensions pivot target).Gives s dims s₁ ∧
      r.sharedClues target dims = .ok shared ∧ ∀ before d after, dims = before ++ d :: after →
        ∃ dest earlier own, r.destination d.1 = .ok dest ∧ before.mapM r.ownClues = .ok earlier ∧
          r.ownClues d = .ok own ∧ if dest == .term ignored then at_.get? d.1 = none else
          ∃ p, at_.get? d.1 = some p ∧
            (r.chosenPath pivot hints d.1 (shared ++ earlier.flatten ++ own)).Gives s' p s' ∧
            ∀ qs c, (paths pivot dest.asTerm).Gives s' qs s' →
              (∀ q ∈ qs, Path.score s' ((shared ++ earlier.flatten ++ own).map Meaning.asTerm) q =
                (· + c) <$> Path.score s' ((shared ++ own).map Meaning.asTerm) q) →
              (r.chosenPath pivot hints d.1 (shared ++ own)).Gives s' p s' := by
  obtain ⟨dims, s₁, hdims, h⟩ := gives_bind.mp h
  obtain ⟨shared, hshared, h⟩ := gives_ofExcept_bind_iff.mp h
  obtain ⟨found, s₂, hfound, h⟩ := gives_bind.mp h
  obtain ⟨he, rfl⟩ := gives_pure.mp h
  obtain ⟨rfl, rfl⟩ := Prod.mk.inj he
  have hsearched := searched_dimensions (dimensions_sorted hdims) hfound
  refine ⟨dims, s₁, shared, hdims, hshared, fun before d after hd => ?_⟩
  obtain ⟨dest, earlier, own, hdest, hearlier, hown, hrec⟩ := hsearched.recorded before d after hd
  refine ⟨dest, earlier, own, hdest, hearlier, hown, ?_⟩
  split at hrec
  case isTrue hg => rwa [if_pos hg]
  case isFalse hg =>
    rw [if_neg hg]
    have ⟨p, hat, hp⟩ := hrec
    exact ⟨p, hat, hp, fun qs c hqs hc => chosenPath_shift hdest hqs hc hp⟩

namespace Employment

open Path.Dwellings (type element)

def town     := type 6 .objectType "gemeente"
def employee := element 7 .objectTypeRelation "werknemer" job person
def livesIn  := element 9 .objectTypeRelation "woont in" person town
def basedIn  := element 11 .objectTypeRelation "gevestigd in" firm town

def relationEdge (name : String) (source target : Nat) (domain codomain : String) : Edge :=
  { name, sort := "ObjectTypeRelation", source, target, domain := ⟨domain, "ObjectType"⟩,
    codomain := ⟨codomain, "ObjectType"⟩ }

def toEmployer := relationEdge "werkgever" 0 2 "baan" "bedrijf"
def toBase     := relationEdge "gevestigd in" 2 3 "bedrijf" "gemeente"
def toEmployee := relationEdge "werknemer" 0 1 "baan" "persoon"
def toHome     := relationEdge "woont in" 1 3 "persoon" "gemeente"

-- Towns are reached from jobs by way of firms and by way of persons.
def ways : Graph where
  nodes := #[⟨"baan", "ObjectType", none⟩, ⟨"persoon", "ObjectType", none⟩,
    ⟨"bedrijf", "ObjectType", none⟩, ⟨"gemeente", "ObjectType", none⟩]
  edges := #[toEmployer, toBase, toEmployee, toHome]

def session : Session :=
  ({ next := 13, graph := ways : Session }.know "werkgever" employer |>.know "gevestigd in" basedIn
    |>.know "werknemer" employee |>.know "woont in" livesIn)

def commuters : Request where
  meanings := [.nothing, .term employee, .term town]
  keywords := [per, relation, objectType]

theorem known_session : ∀ e ∈ [(toEmployer, employer), (toBase, basedIn), (toEmployee, employee),
    (toHome, livesIn)], session.known[e.1.name]? = some e.2 := by
  have past {s : Session} {name name' : String} {k k' : Term} (hne : name' ≠ name)
      (h : s.known[name']? = some k') : (s.know name k).known[name']? = some k' :=
    (known_know_of_ne s k hne).trans h
  simp only [forall_mem_cons]
  refine ⟨?_, ?_, ?_, known_know .., by simp⟩
  · exact past (by decide) <| past (by decide) <| past (by decide) <| known_know ..
  · exact past (by decide) <| past (by decide) <| known_know ..
  · exact past (by decide) <| known_know ..

theorem gives_way (es : List (Edge × Term))
    (h : ∀ e ∈ es, session.known[e.1.name]? = some e.2) : Gives (do
        let kinds ← (es.map (·.1)).mapM fun e => restore (.ofEdge e)
        return kinds.reverse) session (es.map (·.2)).reverse session := by
  refine Gives.bind ?_ gives_done
  induction es
  case nil => exact gives_mapM_nil
  case cons e es ih =>
    have ⟨he, hes⟩ := forall_mem_cons.mp h
    exact Gives.mapM_cons (restore_of_known he) (ih hes)

theorem paths_person : (paths job person).Gives session [[employee]] session := by
  refine gives_get_bind.mpr ?_
  refine Gives.mapM_cons (gives_way [(toEmployee, employee)] fun e he => ?_) gives_mapM_nil
  exact known_session e (by grind)

theorem paths_town :
    (paths job town).Gives session [[basedIn, employer], [livesIn, employee]] session := by
  refine gives_get_bind.mpr ?_
  refine Gives.mapM_cons (gives_way [(toEmployer, employer), (toBase, basedIn)] fun e he => ?_) <|
    Gives.mapM_cons (gives_way [(toEmployee, employee), (toHome, livesIn)] fun e he => ?_)
      gives_mapM_nil
  all_goals exact known_session e (by grind)

theorem reaches_nowhere {t : Term} (ht : paths t job = pathsNamed t.printed job.printed)
    (h : ways.trails t.printed job.printed = []) : (reaches t job).Gives session false session := by
  have hp : (pathsNamed t.printed job.printed).Gives session [] session :=
    gives_get_bind.mpr (h ▸ gives_mapM_nil)
  exact Gives.bind (ht ▸ hp) gives_done

theorem gives_dimensions :
    (commuters.dimensions job job).Gives session [(1, 1), (2, 2)] session := by
  have hrows : rows commuters.keywords 0 = [(1, 1), (2, 2)] := by cbv
  have wanted {i led : Nat} {t : Term} (hd : commuters.dimensionEnd i led = .ok (.term t))
      (ht : t.isEqualTo job = .ok false) (hr : (reaches t job).Gives session false session) :
      Gives (do
        let d ← ofExcept (commuters.dimensionEnd i led)
        if ← ofExcept (d.isEqualTo job) then return false
        if ← ofExcept (d.isEqualTo job) then return false
        return !(← reaches d.asTerm job)) session true session := by
    refine Gives.ofExcept_bind hd (Gives.ofExcept_bind ht ?_)
    exact Gives.ofExcept_bind ht (Gives.bind hr gives_done)
  rw [dimensions, hrows]
  refine Gives.bind (a := [(2, 2), (1, 1)]) ?_ gives_done
  refine Gives.bind (wanted (t := person) rfl rfl (reaches_nowhere rfl rfl)) ?_
  refine Gives.bind (wanted (t := town) rfl rfl (reaches_nowhere rfl rfl)) ?_
  exact gives_done

theorem adds_employee :
    (commuters.addDimension job .nothing [] { clues := [.term job, .term town] } (1, 1)).Gives
      session ⟨[.term job, .term town, .term employee], [[employee]], [(1, [employee])]⟩
      session := by
  have hb : (bestPath job person [job, town, employee] []).Gives session [employee] session :=
    paths_person.bind (gives_get_bind.mpr (gives_ofExcept.mpr ⟨rfl, rfl⟩))
  refine Gives.ofExcept_bind rfl (Gives.bind gives_done ?_)
  refine Gives.ofExcept_bind rfl (Gives.ofExcept_bind rfl ?_)
  exact Gives.bind gives_done (Gives.bind hb (gives_pure.mpr ⟨by cbv, rfl⟩))

theorem adds_town :
    (commuters.addDimension job .nothing []
      ⟨[.term job, .term town, .term employee], [[employee]], [(1, [employee])]⟩ (2, 2)).Gives
      session ⟨[.term job, .term town, .term employee], [[livesIn, employee]],
        [(1, [employee]), (2, [livesIn, employee])]⟩ session := by
  have hb : (bestPath job town [job, town, employee] []).Gives session [livesIn, employee]
      session :=
    paths_town.bind (gives_get_bind.mpr (gives_ofExcept.mpr ⟨rfl, rfl⟩))
  refine Gives.ofExcept_bind rfl (Gives.bind gives_done ?_)
  refine Gives.ofExcept_bind rfl (Gives.bind gives_done ?_)
  exact Gives.bind hb (gives_pure.mpr ⟨by cbv, rfl⟩)

theorem gives_dimensionPaths : (commuters.dimensionPaths job job .nothing []).Gives session
    ([[livesIn, employee]], [(1, [employee]), (2, [livesIn, employee])]) session := by
  refine gives_dimensions.bind (Gives.ofExcept_bind rfl ?_)
  exact Gives.bind (adds_employee.bind (adds_town.bind gives_done))
    gives_done

-- The clue of the employees leads to the towns where they live, the clues of the towns themselves
-- to those of the firms.
theorem towns_by_employee : ∃ at_ shared, (commuters.dimensionPaths job job .nothing []).Gives
    session ([[livesIn, employee]], at_) session ∧
      commuters.sharedClues job [(1, 1), (2, 2)] = .ok shared ∧
      at_.get? 2 = some [livesIn, employee] ∧
      (commuters.chosenPath job [] 2 (shared ++ [.term employee])).Gives session
        [livesIn, employee] session ∧
      commuters.ownClues (2, 2) = .ok [] ∧
      (commuters.chosenPath job [] 2 shared).Gives session [basedIn, employer] session := by
  have ⟨dims, s₁, shared, hdims, hshared, h⟩ := dimensionPaths_chosen gives_dimensionPaths
  obtain ⟨rfl, rfl⟩ := gives_dimensions.unique hdims
  obtain rfl : [.term job, .term town] = shared := Except.ok.inj hshared
  have ⟨dest, earlier, own, hdest, hearlier, hown, h⟩ := h [(1, 1)] (2, 2) [] rfl
  obtain rfl : .term town = dest := Except.ok.inj hdest
  obtain rfl : [[.term employee]] = earlier := Except.ok.inj hearlier
  obtain rfl : [] = own := Except.ok.inj hown
  have ⟨p, hp, hc, _⟩ := h
  obtain rfl : [livesIn, employee] = p := Option.some.inj hp
  refine ⟨_, _, gives_dimensionPaths, rfl, rfl, hc, rfl, ?_⟩
  refine Gives.ofExcept_bind rfl (paths_town.bind ?_)
  exact gives_get_bind.mpr (gives_ofExcept.mpr ⟨rfl, rfl⟩)

end Employment

end Request
end Inquiry
