import Mathlib
import Inquiry.Proofs.Request.Arranging

/-!
The order of the conditions of a selection. Where all of them can be added, the selection does not
depend on the order: it has one condition for each text of a path. Conditions on a path of several
edges that is there already make it fail.
-/

namespace Inquiry

open List

namespace Request

open Term Session SessionM Explanation

section Run

variable {s s' : Session} {ms : List Meaning} {pivot t : Term} {e e' : Int × Path}
variable {es rest : Assoc Int Path} {args : List Term}

theorem collected_nil (hs : s.Faithful) : Collected s ms pivot [] s [] :=
  ⟨⟨hs.onward, nofun, nofun, nofun, .nil, .nil⟩, nofun⟩

variable (hs : s.Faithful) (hp : s.HasObjectType pivot)
  (hes : ∀ e ∈ es, ∃ c, Restricts s ms pivot e c)
include hs hp hes

theorem collected_of_gives (h : (es.foldlM (condition ms pivot) []).Gives s args s') :
    ∃ xs, args = flat xs ∧ Collected s ms pivot es s' xs := by
  refine h.foldlM (J := fun done s₁ args => ∃ xs, args = flat xs ∧ Collected s ms pivot done s₁ xs)
    ⟨[], rfl, collected_nil hs⟩ ?_
  rintro done e rest s₁ _ args' s₂ he ⟨xs, rfl, hc⟩ hstep
  have hdone : ∀ e ∈ done, ∃ c, Restricts s ms pivot e c := fun e' he' => hes e' (by simp [he, he'])
  have ⟨c, hf⟩ := hes e (by simp [he])
  have ⟨t, u, s₃, hx, hrun⟩ := condition_runs hc.onward hp hf
  obtain ⟨hadd, rfl⟩ := Prod.mk.inj ((hrun (flat xs)).symm.trans hstep)
  obtain ⟨ys, hy, hc⟩ | hr := hc.add_or_refused hs hdone hf hx
  · exact ⟨ys, Except.ok.inj (hadd.symm.trans hy), hc⟩
  · cases hadd.symm.trans hr

theorem exists_collected (hc : es.Pairwise (Clear ms pivot)) :
    ∃ args s', (es.foldlM (condition ms pivot) []).Gives s args s' ∧
      ∃ xs, args = flat xs ∧ Collected s ms pivot es s' xs := by
  refine exists_foldlM
    (J := fun done s₁ args => ∃ xs, args = flat xs ∧ Collected s ms pivot done s₁ xs)
    ⟨[], rfl, collected_nil hs⟩ ?_
  rintro done e rest s₁ _ he - ⟨xs, rfl, h⟩
  have hdone : ∀ e ∈ done, ∃ c, Restricts s ms pivot e c := fun e' he' => hes e' (by simp [he, he'])
  have ⟨c, hf⟩ := hes e (by simp [he])
  have ⟨t, u, s₂, hx, hrun⟩ := condition_runs h.onward hp hf
  have hce : ∀ e' ∈ done, Clear ms pivot e' e := fun e' he' =>
    (pairwise_append.mp (he ▸ hc)).right.right e' he' e (by simp)
  obtain ⟨ys, hy, h⟩ := h.add_of_clear hs hdone hf hx hce
  exact ⟨flat ys, s₂, (hrun (flat xs)).trans (by rw [hy]), ys, rfl, h⟩

omit hes in
theorem selectionOf_fails {c c' : Term} (hf : Restricts s ms pivot e c)
    (hf' : Restricts s ms pivot e' c') (hc : ¬Clear ms pivot e e') (rest : Assoc Int Path) :
    ∃ s', (selectionOf (e :: e' :: rest) ms pivot).runIn s = (.error .badValue, s') := by
  have ⟨t, u, s₁, hx, hrun⟩ := condition_runs hs.onward hp hf
  obtain ⟨xs, hxs, h⟩ := (collected_nil hs).add_of_clear hs (by simp) hf hx (by simp)
  have ⟨t', u', s₂, hx', hrun'⟩ := condition_runs h.onward hp hf'
  have hr := h.refused_of_not_clear hs hf hf' hx' hc
  have hfirst : (condition ms pivot [] e).runIn s = (.ok (flat xs), s₁) :=
    (hrun []).trans (hxs ▸ rfl)
  refine ⟨s₂, ?_⟩
  rw [selectionOf_eq, foldlM_cons, bind_assoc, runIn_bind, hfirst]
  simp only [foldlM_cons, bind_assoc]
  rw [runIn_bind, hrun', hr]

theorem exists_selection (hc : es.Pairwise (Clear ms pivot)) :
    ∃ t s', (selectionOf es ms pivot).Gives s t s' := by
  obtain ⟨_, s₁, h, xs, rfl, hx⟩ := exists_collected hs hp hes hc
  cases xs
  case nil => exact ⟨.nothing, s₁, h.bind gives_done⟩
  case cons x xs =>
    obtain ⟨t, ht⟩ := hx.apply_inclusion (by simp) s₁.next
    exact ⟨t, s₁.numbered, h.bind (gives_app_iff.mpr ⟨ht, rfl⟩)⟩

theorem collected_of_selection (h : (selectionOf es ms pivot).Gives s t s') :
    ∃ s₁, Collected s ms pivot es s₁ (pairs t) ∧ s₁.Onward s' ∧
      (es ≠ [] → ∃ n ty, t = .app n .inclusion (flat (pairs t)) ty) := by
  obtain ⟨_, s₁, hfold, hr⟩ := gives_bind.mp h
  obtain ⟨xs, rfl, hx⟩ := collected_of_gives hs hp hes hfold
  cases xs
  case nil =>
    obtain ⟨rfl, rfl⟩ := gives_pure.mp hr
    refine ⟨_, hx, hx.onward.faithful.onward, fun hn => ?_⟩
    obtain ⟨e, he⟩ := exists_mem_of_ne_nil es hn
    obtain ⟨_, hm, _⟩ := hx.greatest e he
    cases hm
  case cons x xs =>
    obtain ⟨happly, rfl⟩ := gives_app_iff.mp hr
    obtain ⟨-, ty, -, rfl⟩ := apply_eq_ok.mp happly
    have hpairs : pairs (.app s₁.next .inclusion (flat (x :: xs)) ty) = x :: xs := pairUp_flat _
    rw [hpairs]
    exact ⟨s₁, hx, onward_numbered s₁ s₁ hx.onward.faithful.onward, fun _ => ⟨_, _, rfl⟩⟩

end Run

section Order

variable {s s₁ s₂ s₃ s' : Session} {ms : List Meaning} {pivot t u : Term} {e e' : Int × Path}
variable {es es' : Assoc Int Path} {x y : Term × Term} {xs ys : List (Term × Term)}

theorem equals_of_applied {p : Path} (hn : p ≠ []) (hp : ∀ k ∈ p, k.isKind)
    (ht : Applied .composition p t) (hu : Applied .composition p u) : t.equals u := by
  have hp : ∀ k ∈ p, k.equals k := by
    intro k hk
    have hk := hp k hk
    cases k <;> simp_all [isKind]
  rcases p with _ | ⟨k, _ | ⟨l, p⟩⟩
  case nil      => exact absurd rfl hn
  case cons.nil =>
    obtain rfl : t = k := ht
    obtain rfl : u = t := hu
    exact hp u (by simp)
  case cons.cons =>
    obtain ⟨_, _, rfl⟩ := ht.joins
    obtain ⟨_, _, rfl⟩ := hu.joins
    exact equals_app hp

theorem equalsList_flat (h : Forall₂ (fun x y => x.1.equals y.1 ∧ x.2.equals y.2) xs ys) :
    equals.equalsList (flat xs) (flat ys) := by
  induction h
  case nil => rfl
  case cons h _ ih => simp [flat_cons, equals.equalsList, h.left, h.right, ih]

theorem Recallable.later (h : Recallable s pivot) (hl : s.Later s') : Recallable s' pivot :=
  h.imp (fun ⟨k, hk⟩ => ⟨k, hl.known _ _ hk⟩) (hl.graph ▸ ·)

-- Constants of the conditions that print alike are equal.
def Alike (ms : List Meaning) (es : Assoc Int Path) : Prop :=
  ∀ e ∈ es, ∀ e' ∈ es, ∀ c c', Sequence.get ms e.1 = .ok (.term c) →
    Sequence.get ms e'.1 = .ok (.term c') → c.printed = c'.printed → c.equals c'

-- Right sides that print alike are equal, if no variable had to be made for them.
theorem Makes.equals_right (h : Makes s s₁ ms pivot e x) (h' : Makes s₂ s₃ ms pivot e' y)
    (hr : Recallable s pivot) (hl : s.Later s₁) (hl₁ : s₁.Later s₂) (hl₂ : s₂.Later s₃)
    (hc : Alike ms es) (he : e ∈ es) (he' : e' ∈ es) (hp : x.2.printed = y.2.printed) :
    x.2.equals y.2 := by
  have hxy : valueText ms pivot e.1 = valueText ms pivot e'.1 := by
    rw [← h.printed_right, ← h'.printed_right, hp]
  obtain ⟨c, a, hca, ha, hx⟩ := h.right
  obtain ⟨c', a', hca', ha', hy⟩ := h'.right
  have hka := (hl₁.trans hl₂).known _ _ (ha.known hr)
  obtain rfl : a = a' := Option.some.inj (hka.symm.trans (ha'.known (hr.later (hl.trans hl₁))))
  have hcc : c.printed = c'.printed := by
    simpa [valueText, hca, hca', Meaning.asTerm, Op.enclose, Op.joinFrom, String.ext_iff] using hxy
  obtain ⟨_, _, hx⟩ := hx.joins
  obtain ⟨_, _, hy⟩ := hy.joins
  rw [hx, hy]
  simp [equals, equals.equalsList, hc e he e' he' c c' hca hca' hcc, ha.goes.whole]

theorem Arranged.eq_of_printed (h : Arranged s ms pivot es s₁ xs) (hx : x ∈ xs) (hy : y ∈ xs)
    (hp : x.1.printed = y.1.printed) : x = y := by
  have hn : (xs.map (·.1.printed)).Nodup := pairwise_map.mpr (h.sorted.imp ne_of_gt)
  exact inj_on_of_nodup_map hn hx hy hp

section Texts

variable (hes : ∀ e ∈ es, ∃ c, Restricts s ms pivot e c) (h : Collected s ms pivot es s₁ xs)
include hes h

theorem Collected.mem_texts (text : String) :
    text ∈ xs.map (·.1.printed) ↔ ∃ e ∈ es, e.2.shown = text := by
  rw [mem_map]
  constructor
  · rintro ⟨x, hx, rfl⟩
    obtain ⟨e, he, hm⟩ := h.made x hx
    obtain ⟨c, hf⟩ := hes e he
    exact ⟨e, he, (hm.printed_left hf.ne_nil).symm⟩
  · rintro ⟨e, he, rfl⟩
    obtain ⟨x, hx, hl, _⟩ := h.greatest e he
    obtain ⟨c, hf⟩ := hes e he
    exact ⟨x, hx, printed_of_applied hl hf.ne_nil⟩

theorem Collected.value_le (hx : x ∈ xs) (he : e ∈ es) (hp : e.2.shown = x.1.printed) :
    Applied .composition e.2 x.1 ∧ valueText ms pivot e.1 ≤ x.2.printed := by
  obtain ⟨y, hy, hl, hg⟩ := h.greatest e he
  obtain ⟨c, hf⟩ := hes e he
  obtain rfl := h.eq_of_printed hy hx ((printed_of_applied hl hf.ne_nil).trans hp)
  exact ⟨hl, hg⟩

end Texts

-- The conditions of one run and those of a later one, on the same paths in another order.
theorem Collected.forall₂_equals (hes : ∀ e ∈ es, ∃ c, Restricts s ms pivot e c)
    (hes' : ∀ e ∈ es', ∃ c, Restricts s₂ ms pivot e c) (h : Collected s ms pivot es s₁ xs)
    (h' : Collected s₂ ms pivot es' s₃ ys) (hm : ∀ e, e ∈ es' ↔ e ∈ es) (hl : s₁.Later s₂)
    (hr : Recallable s pivot) (hc : Alike ms es) :
    Forall₂ (fun x y => x.1.equals y.1 ∧ x.2.equals y.2) xs ys := by
  have htexts : xs.map (·.1.printed) = ys.map (·.1.printed) := by
    refine List.Pairwise.eq_of_mem_iff (r := (· > ·)) (pairwise_map.mpr h.sorted)
      (pairwise_map.mpr h'.sorted) fun text => ?_
    rw [h.mem_texts hes, h'.mem_texts hes']
    simp [hm]
  have hsame : Forall₂ (fun x y => x.1.printed = y.1.printed) xs ys := by
    rwa [← forall₂_eq_eq_eq, forall₂_map_left_iff, forall₂_map_right_iff] at htexts
  refine (forall₂_mem hsame).imp ?_
  rintro x y ⟨hx, hy, hp⟩
  obtain ⟨e, he, hmx⟩ := h.made x hx
  obtain ⟨e', he', hmy⟩ := h'.made y hy
  obtain ⟨c, hf⟩ := hes e he
  obtain ⟨c', hf'⟩ := hes' e' he'
  obtain ⟨hle, hge⟩ := h.value_le hes hx ((hm e').mp he')
    ((hmy.printed_left hf'.ne_nil).symm.trans hp.symm)
  obtain ⟨_, hge'⟩ := h'.value_le hes' hy ((hm e).mpr he)
    ((hmx.printed_left hf.ne_nil).symm.trans hp)
  rw [← hmy.printed_right] at hge
  rw [← hmx.printed_right] at hge'
  refine ⟨equals_of_applied hf'.ne_nil (fun k hk => (hf'.edges k hk).left) hle hmy.left, ?_⟩
  exact hmx.equals_right hmy hr h.onward.later hl h'.onward.later hc he ((hm e').mp he')
    (le_antisymm hge' hge)

theorem Restricts.later {c : Term} (h : Restricts s ms pivot e c) (hl : s.Later s') :
    Restricts s' ms pivot e c where
  edges k hk := ⟨(h.edges k hk).left, hl.known _ _ (h.edges k hk).right⟩
  first := h.first
  ends  := h.ends
  const := h.const

-- A selection with one condition for each text of a path, in the order of the texts. Of several
-- right sides the greatest one is there.
structure Canonical (s s' : Session) (ms : List Meaning) (pivot : Term) (es : Assoc Int Path)
    (t : Term) : Prop where
  built    : es ≠ [] → ∃ n ty, t = .app n .inclusion (flat (pairs t)) ty
  texts    : ∀ text, text ∈ (pairs t).map (·.1.printed) ↔ ∃ e ∈ es, e.2.shown = text
  sorted   : (pairs t).Pairwise fun x y => y.1.printed < x.1.printed
  made     : ∀ x ∈ pairs t, ∃ e ∈ es, Makes s s' ms pivot e x
  greatest : ∀ x ∈ pairs t, ∀ e ∈ es, e.2.shown = x.1.printed →
    valueText ms pivot e.1 ≤ x.2.printed

-- Whichever of two conditions is there first, the other one can be added.
def AllClear (ms : List Meaning) (pivot : Term) (es : Assoc Int Path) : Prop :=
  es.Pairwise fun e e' => Clear ms pivot e e' ∧ Clear ms pivot e' e

theorem AllClear.perm (h : AllClear ms pivot es) (hp : es'.Perm es) :
    es'.Pairwise (Clear ms pivot) :=
  ((hp.pairwise_iff fun h => h.symm).mpr h).imp And.left

theorem exists_not_clear (h : ¬AllClear ms pivot es) :
    ∃ e e' rest, (e :: e' :: rest).Perm es ∧ ¬Clear ms pivot e e' := by
  rw [AllClear, pairwise_iff_forall_sublist] at h
  push Not at h
  obtain ⟨e, e', hsub, hc⟩ := h
  obtain ⟨rest, hperm⟩ := hsub.exists_perm_append
  by_cases hee : Clear ms pivot e e'
  case neg => exact ⟨e, e', rest, hperm.symm, hee⟩
  case pos => exact ⟨e', e, rest, (List.Perm.swap ..).trans hperm.symm, hc hee⟩

-- Every selection that is made is canonical, so that two orders of the paths give equal ones unless
-- a variable has to be made. Every order gives one if all paths are clear of each other, and else
-- there is an order that fails.
theorem selection_in_any_order (hs : s.Faithful) (hp : s.HasObjectType pivot)
    (hes : ∀ e ∈ es, ∃ c, Restricts s ms pivot e c) :
    (∀ t s', (selectionOf es ms pivot).Gives s t s' →
      s.Onward s' ∧ Canonical s s' ms pivot es t) ∧
    (es ≠ [] → Recallable s pivot → Alike ms es → ∀ es' t t' s₁ s₂ s₃, es'.Perm es →
      (selectionOf es ms pivot).Gives s t s₁ → s₁.Onward s₂ →
      (selectionOf es' ms pivot).Gives s₂ t' s₃ → t.equals t') ∧
    (AllClear ms pivot es → ∀ es', es'.Perm es → ∃ t s', (selectionOf es' ms pivot).Gives s t s') ∧
    (¬AllClear ms pivot es → ∃ es', es'.Perm es ∧
      ∃ s', (selectionOf es' ms pivot).runIn s = (.error .badValue, s')) := by
  refine ⟨fun t s' h => ?_, fun hn hr hc es' t t' s₁ s₂ s₃ hperm h ho h' => ?_,
    fun hc es' hperm => ?_, fun hc => ?_⟩
  · obtain ⟨s₁, hx, ho, hb⟩ := collected_of_selection hs hp hes h
    refine ⟨hx.onward.trans ho, hb, hx.mem_texts hes, hx.sorted, fun x hm => ?_,
      fun x hm e he ht => ?_⟩
    · obtain ⟨e, he, hm⟩ := hx.made x hm
      exact ⟨e, he, hm.later ho.later⟩
    · exact (hx.value_le hes hm he ht).right
  · obtain ⟨s₄, hx, ho₁, hb⟩ := collected_of_selection hs hp hes h
    have hl : s.Later s₂ := (hx.onward.trans (ho₁.trans ho)).later
    have hes' : ∀ e ∈ es', ∃ c, Restricts s₂ ms pivot e c := fun e he =>
      (hes e (hperm.mem_iff.mp he)).imp fun c hf => hf.later hl
    obtain ⟨s₅, hx', _, hb'⟩ := collected_of_selection ho.faithful (hp.later hl) hes' h'
    have hn' : es' ≠ [] := fun he => hn (by simpa [he] using hperm)
    have hall := hx.forall₂_equals hes hes' hx' (fun _ => hperm.mem_iff) (ho₁.trans ho).later hr hc
    obtain ⟨_, _, ht⟩ := hb hn
    obtain ⟨_, _, ht'⟩ := hb' hn'
    rw [ht, ht']
    simp [equals, equalsList_flat hall]
  · exact exists_selection hs hp (fun e he => hes e (hperm.mem_iff.mp he)) (hc.perm hperm)
  · obtain ⟨e, e', rest, hperm, hc⟩ := exists_not_clear hc
    obtain ⟨c, hf⟩ := hes e (hperm.mem_iff.mp (by simp))
    obtain ⟨c', hf'⟩ := hes e' (hperm.mem_iff.mp (by simp))
    exact ⟨_, hperm, selectionOf_fails hs hp hf hf' hc rest⟩

end Order

namespace Residents

open Towns

def everyone : Term := element 14 .variable (togetherTitle "persoon") person .one
def man : Term      := element 16 .constant "man" .one sexes
def delft : Term    := element 18 .constant "Delft" .one names

def residents : Session := Towns.session.numbered.know (togetherTitle "persoon") everyone

def meanings : List Meaning := [.term leiden, .term man, .term delft]

def toTown : Path := [townName, home]

theorem everyone_elementKind : everyone.ElementKind person .one :=
  ⟨⟨_, _, _, rfl, rfl⟩, person_typeKind, typeKind_one⟩

theorem man_elementKind : man.ElementKind .one sexes :=
  ⟨⟨_, _, _, rfl, rfl⟩, typeKind_one, sexes_typeKind⟩

theorem delft_elementKind : delft.ElementKind .one names :=
  ⟨⟨_, _, _, rfl, rfl⟩, typeKind_one, names_typeKind⟩

theorem title_unused : ∀ x ∈ Towns.types ++ Towns.elements, x.1 ≠ togetherTitle "persoon" := by
  decide

theorem known_kind {k : Term} (h : (k.printed, k) ∈ Towns.types ++ Towns.elements) :
    residents.known[k.printed]? = some k := by
  rw [residents, known_know_of_ne _ _ (title_unused _ h)]
  exact known_of_mem h

theorem residents_faithful : residents.Faithful := by
  have hu : Towns.session.known[togetherTitle "persoon"]? = none := by
    cases hk : Towns.session.known[togetherTitle "persoon"]?
    case none => rfl
    case some k => exact absurd rfl (title_unused _ (mem_of_known hk))
  have he : Towns.session.graph.edge? (togetherTitle "persoon") = none := by decide
  refine Towns.faithful.know hu ?_ rfl (fun e hm hn => ?_) fun _ _ => rfl
  · exact Towns.faithful.consistent.numbered.fits_together he (known_of_mem (by simp [types]))
      everyone_elementKind
  · exact absurd hn (by simpa using Array.find?_eq_none.mp he e hm)

def twoWays : Assoc Int Path := [(0, toTown), (1, [sex])]
def oneWay : Assoc Int Path  := [(0, toTown), (2, toTown)]

theorem restricts_town {k : Int} {c : Term} (hk : Sequence.get meanings k = .ok (.term c))
    (hc : c.Goes .one names) : Restricts residents meanings person (k, toTown) c where
  edges := by
    simp only [toTown, forall_mem_cons]
    exact ⟨⟨rfl, known_kind (by simp [elements, townName, element, printed])⟩,
      ⟨rfl, known_kind (by simp [elements, home, element, printed])⟩, by simp⟩
  first := ⟨home, rfl, rfl⟩
  ends  := ⟨names, names, home_leads, hc, names_typeKind.isType.whole⟩
  const := hk

theorem restricts_sex : Restricts residents meanings person (1, [sex]) man where
  edges := by simpa using ⟨rfl, known_kind (by simp [elements, sex, element, printed])⟩
  first := ⟨sex, rfl, rfl⟩
  ends  := ⟨sexes, sexes, .single sex_elementKind.goes, man_elementKind.goes,
    sexes_typeKind.isType.whole⟩
  const := rfl

theorem twoWays_restrict : ∀ e ∈ twoWays, ∃ c, Restricts residents meanings person e c := by
  simp only [twoWays, forall_mem_cons]
  exact ⟨⟨_, restricts_town rfl leiden_elementKind.goes⟩, ⟨_, restricts_sex⟩, by simp⟩

theorem oneWay_restrict : ∀ e ∈ oneWay, ∃ c, Restricts residents meanings person e c := by
  simp only [oneWay, forall_mem_cons]
  exact ⟨⟨_, restricts_town rfl leiden_elementKind.goes⟩,
    ⟨_, restricts_town rfl delft_elementKind.goes⟩, by simp⟩

theorem twoWays_clear : AllClear meanings person twoWays := by
  refine pairwise_pair.mpr ⟨fun h => absurd h ?_, fun h => absurd h ?_⟩
  · decide
  · decide

theorem twoWays_alike : Alike meanings twoWays := by
  have hget : ∀ e ∈ twoWays, ∀ c, Sequence.get meanings e.1 = .ok (.term c) →
      c ∈ [leiden, man] := by
    simp only [twoWays, forall_mem_cons]
    refine ⟨fun c hc => ?_, fun c hc => ?_, by simp⟩
    · obtain rfl : leiden = c := Meaning.term.inj (Except.ok.inj hc)
      simp
    · obtain rfl : man = c := Meaning.term.inj (Except.ok.inj hc)
      simp
  have heq : ∀ c ∈ [leiden, man], ∀ c' ∈ [leiden, man], c.printed = c'.printed → c.equals c' := by
    decide
  exact fun e he e' he' c c' hc hc' => heq c (hget e he c hc) c' (hget e' he' c' hc')

-- Conditions on two paths can be given in any order. Two conditions on one path of several edges
-- cannot be given.
theorem residents_in_any_order :
    (∃ t t' s₁ s₂, (selectionOf twoWays meanings person).Gives residents t s₁ ∧
      (selectionOf twoWays.reverse meanings person).Gives s₁ t' s₂ ∧ t.equals t') ∧
    ∃ es', es'.Perm oneWay ∧
      ∃ s', (selectionOf es' meanings person).runIn residents = (.error .badValue, s') := by
  have hp : residents.HasObjectType person :=
    ⟨by decide, known_kind (by simp [types, person, type, printed])⟩
  have hr : Recallable residents person := .inl ⟨everyone, known_know ..⟩
  have hn : ¬AllClear meanings person oneWay := by
    simp [AllClear, oneWay, Clear, toTown]
  obtain ⟨hcan, heq, hgives, _⟩ := selection_in_any_order residents_faithful hp twoWays_restrict
  obtain ⟨t, s₁, h⟩ := hgives twoWays_clear twoWays (.refl _)
  obtain ⟨ho, _⟩ := hcan t s₁ h
  obtain ⟨_, _, hgives', _⟩ := selection_in_any_order ho.faithful (hp.later ho.later)
    fun e he => (twoWays_restrict e he).imp fun c hf => hf.later ho.later
  obtain ⟨t', s₂, h'⟩ := hgives' twoWays_clear twoWays.reverse (List.reverse_perm _)
  refine ⟨⟨t, t', s₁, s₂, h, h', heq (by simp [twoWays]) hr twoWays_alike _ t t' s₁ s₁ s₂
    (List.reverse_perm _) h ho.faithful.onward h'⟩, ?_⟩
  exact (selection_in_any_order residents_faithful hp oneWay_restrict).right.right.right hn

end Residents

end Request
end Inquiry
