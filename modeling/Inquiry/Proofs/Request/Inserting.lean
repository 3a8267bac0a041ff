import Mathlib
import Inquiry.Proofs.Request.Dimensions

/-!
Object types that are made a dimension of a request. The keyword of a breakdown is put before the
word that stands for the object type, or both are added at the end. Whatever stands around it, the
object type is found among the dimensions then.
-/

namespace Inquiry

open List Sequence Meaning

theorem Sequence.insertAt_natCast {xs : List α} {i : Nat} (h : i ≤ xs.length) (x : α) :
    insertAt xs (i : Int) x = xs.insertIdx i x := by
  have hb : bound xs.length (i : Int) = i := by simp [bound, h]
  rw [insertAt, hb]
  induction xs generalizing i
  case nil =>
    obtain rfl : i = 0 := by simpa using h
    rfl
  case cons y ys ih =>
    cases i
    case zero   => rfl
    case succ i =>
      have h : i ≤ ys.length := by simpa using h
      simpa using ih h (by simp [bound, h])

theorem forall₂_insertIdx {R : α → β → Prop} {as : List α} {bs : List β} {a : α} {b : β}
    (h : Forall₂ R as bs) (hr : R a b) (i : Nat) :
    Forall₂ R (as.insertIdx i a) (bs.insertIdx i b) := by
  induction i generalizing as bs
  case zero => exact .cons hr h
  case succ i ih =>
    cases h
    case nil           => exact .nil
    case cons hab hrest => exact .cons hab (ih hrest)

namespace Request

open Keyword SessionM

variable {r : Request} {m : Model} {s s₀ : Session} {p pivot target : Term} {i : Nat} {k w : String}
  {n : Meaning}

def insert (r : Request) (i : Nat) (w : String) (n : Meaning) (k : String) : Request :=
  ⟨r.tokens.insertIdx i w, r.meanings.insertIdx i n, r.keywords.insertIdx i k⟩

def erase (r : Request) (i : Nat) : Request :=
  ⟨r.tokens.eraseIdx i, r.meanings.eraseIdx i, r.keywords.eraseIdx i⟩

-- There are as many words as keywords, and just the words that are read as object types stand for
-- object types.
structure Exact (r : Request) : Prop where
  fitting : r.Fitting
  tokens  : r.tokens.length = r.keywords.length
  only    : ∀ (i : Nat) n, r.meanings[i]? = some n → n.asTerm.isObjectType →
    r.keywords[i]? = some objectType

-- The object type `p` has been made a dimension: the keyword of a breakdown stands at place `i`, and
-- `p` right after it. Without what was put in, the request is as before.
structure MadeDimension (r r' : Request) (p : Term) (i : Nat) : Prop where
  tokens   : r'.tokens.length = r'.keywords.length
  meanings : r'.meanings.length = r'.keywords.length
  restored : .term p ∈ r.meanings ∧ r'.erase i = r ∨
    .term p ∉ r.meanings ∧ (r'.erase (i + 1)).erase i = r
  per      : r'.keywords[i]? = some per
  keyword  : r'.keywords[i + 1]? = some objectType
  meaning  : r'.meanings[i + 1]? = some (.term p)

theorem erase_insert (r : Request) (i : Nat) (w : String) (n : Meaning) (k : String) :
    (r.insert i w n k).erase i = r := by
  simp [insert, erase, eraseIdx_insertIdx_self]

theorem Fitting.insert (h : r.Fitting) (hs : Suits k n) (i : Nat) (w : String) :
    (r.insert i w n k).Fitting :=
  forall₂_insertIdx h hs i

theorem place_eq {ks : List String} (h : r.meanings.length = i + ks.length) :
    insertDimension.place r n ks i = .ok (i + (r.meanings.drop i).findIdx (· == n)) := by
  induction ks generalizing i
  case nil =>
    have hd : r.meanings.drop i = [] := drop_eq_nil_of_le (by simpa using h.le)
    simp [insertDimension.place, hd]
  case cons k ks ih =>
    have hi : i < r.meanings.length := by simp [h]
    have hm : r.meaning i = .ok r.meanings[i] :=
      get_natCast (getElem?_eq_getElem hi)
    rw [insertDimension.place, hm, ok_bind, drop_eq_getElem_cons hi, findIdx_cons]
    cases hn : r.meanings[i] == n
    case true => simp
    case false =>
      have := ih (i := i + 1) (by simp [h]; omega)
      simp [this]
      omega

theorem place_keywords (hl : r.meanings.length = r.keywords.length) :
    insertDimension.place r n r.keywords 0 = .ok (r.meanings.findIdx (· == n)) := by
  rw [place_eq (by simpa using hl)]
  simp

section Insertion

variable (hl : r.meanings.length = r.keywords.length) (ht : r.tokens.length = r.keywords.length)
include hl ht

-- The keyword of a breakdown is put before the first place that stands for `n`.
theorem insertDimension_of_mentioned (hi : r.meanings.findIdx (· == n) = i)
    (hlt : i < r.keywords.length) :
    r.insertDimension n = .ok (r.insert i "per" .nothing per) := by
  have hne : (i != r.keywords.length) = true := by simpa using hlt.ne
  simp only [insertDimension, place_keywords hl, hi, ok_bind, hne, if_true]
  rw [insertAt_natCast (by omega), insertAt_natCast (by omega),
    insertAt_natCast (by omega)]
  rfl

-- What is not mentioned is added at the end, after the keyword of a breakdown.
theorem insertDimension_of_unmentioned (hi : r.meanings.findIdx (· == n) = i)
    (he : i = r.keywords.length) : r.insertDimension n =
      .ok ((r.insert i "per" .nothing per).insert (i + 1) n.printed n objectType) := by
  have hne : (i != r.keywords.length) = false := by simpa using he
  have hlen {α : Type} {xs : List α} (h : xs.length = r.keywords.length) (x : α) :
      i + 1 ≤ (xs.insertIdx i x).length := by
    rw [length_insertIdx_of_le_length (by omega)]
    omega
  simp only [insertDimension, place_keywords hl, hi, ok_bind, hne, Bool.false_eq_true, if_false]
  have first {α : Type} {xs : List α} (h : xs.length = r.keywords.length) (x : α) :
      insertAt xs (i : Int) x = xs.insertIdx i x :=
    insertAt_natCast (by omega) x
  rw [first ht, first hl, first rfl, insertAt_natCast (hlen ht _),
    insertAt_natCast (hlen hl _), insertAt_natCast (hlen rfl _)]
  rfl

end Insertion

theorem eq_term_of_beq (hid : Term.Identified (p :: r.meanings.map asTerm))
    (hn : n ∈ r.meanings) (h : (n == .term p) = true) : n = .term p := by
  cases n
  case term t =>
    have ht : t ∈ p :: r.meanings.map Meaning.asTerm :=
      mem_cons_of_mem _ (mem_map.mpr ⟨_, hn, rfl⟩)
    rw [hid t ht p (by simp) h]
  case text | list | named => cases h

theorem mention (hid : Term.Identified (p :: r.meanings.map asTerm))
    (hmem : .term p ∈ r.meanings) :
    r.meanings[r.meanings.findIdx (· == .term p)]? = some (.term p) := by
  have same : (term p == .term p) = true := BEq.refl p
  have hlt : r.meanings.findIdx (· == .term p) < r.meanings.length :=
    findIdx_lt_length_of_exists ⟨_, hmem, same⟩
  have hsame := @findIdx_getElem _ (· == .term p) r.meanings hlt
  rw [getElem?_eq_getElem hlt, eq_term_of_beq hid (getElem_mem hlt) hsame]

theorem no_mention (hid : Term.Identified (p :: r.meanings.map asTerm))
    (hmem : .term p ∉ r.meanings) :
    r.meanings.findIdx (· == .term p) = r.meanings.length := by
  refine findIdx_eq_length.mpr fun n hn => ?_
  by_contra hb
  exact hmem (eq_term_of_beq hid hn (by simpa using hb) ▸ hn)

-- An object type right after the keyword of a breakdown is found among the dimensions, if the answer
-- can be broken down by it.
theorem exists_dimension_of_per {g : Graph} (hg : g.Legible) (hs : s.Legible g) (hr : r.Fitting)
    (hper : r.keywords[i]? = some per) (hot : r.keywords[i + 1]? = some objectType)
    (hn : r.meanings[i + 1]? = some (.term p)) (hpivot : ¬p.equals pivot)
    (htarget : ¬p.equals target) (hlead : ¬g.LeadsTo p target) :
    ∃ ds s', (r.dimensions pivot target).Gives s ds s' ∧ ∃ v, (i + 1, v) ∈ ds := by
  have ⟨ds, s', hds, hmem⟩ := exists_dimensions hg hs hr pivot target
  have ⟨v, hv⟩ := exists_noted r.keywords (i + 1)
  have hdim : IsDimension r.keywords (i + 1) := ⟨objectType, by simp, hot⟩
  refine ⟨ds, s', hds, v, (hmem _ v).mpr ⟨mem_rows_iff.mpr ⟨?_, hdim, ?_, hv⟩, ?_⟩⟩
  · refine ⟨i, Nat.zero_le i, announces_iff.mpr (.inl hper), Nat.lt_succ_self i, fun x h h' => ?_⟩
    obtain rfl : x = i + 1 := by omega
    exact hdim.connects
  · rintro ⟨m, _, hm, _, _, hrel⟩
    rw [← hm, hot] at hrel
    exact absurd hrel (by decide)
  · exact ⟨p, ⟨.term p, hn, by simp [hot, asTerm]⟩, hpivot, htarget, hlead⟩

theorem suits_per : Suits per .nothing :=
  suits_other (by decide)

section Exact

variable (hr : r.Exact) (hp : p.isObjectType)
  (hid : Term.Identified (p :: r.meanings.map asTerm))
include hr hp hid

theorem madeDimension_of_mem (hmem : .term p ∈ r.meanings) :
    ∃ i r', r.insertDimension (.term p) = .ok r' ∧ r'.Fitting ∧ r.MadeDimension r' p i := by
  have hl := hr.fitting.length_eq.symm
  have hn := mention hid hmem
  generalize hi : r.meanings.findIdx (· == .term p) = i at hn
  have hot := hr.only i _ hn hp
  have hlt : i < r.keywords.length := (List.getElem?_eq_some_iff.mp hot).1
  have hr' := hr.fitting.insert suits_per i "per"
  refine ⟨i, _, insertDimension_of_mentioned hl hr.tokens hi hlt, hr', ?_, hr'.length_eq.symm,
    .inl ⟨hmem, erase_insert ..⟩, ?_, ?_, ?_⟩
  · simp [insert, length_insertIdx, hr.tokens]
  · simp [insert, getElem?_insertIdx_self, hlt.le]
  · simp [insert, getElem?_insertIdx_of_gt, hot]
  · simp [insert, getElem?_insertIdx_of_gt, hn]

theorem madeDimension_of_not_mem (hmem : .term p ∉ r.meanings) :
    ∃ i r', r.insertDimension (.term p) = .ok r' ∧ r'.Fitting ∧ r.MadeDimension r' p i := by
  have hl := hr.fitting.length_eq.symm
  have hi := no_mention hid hmem
  have hr' := (hr.fitting.insert suits_per r.meanings.length "per").insert (suits_objectType hp)
    (r.meanings.length + 1) p.printed
  refine ⟨r.meanings.length, _, insertDimension_of_unmentioned hl hr.tokens hi hl, hr', ?_,
    hr'.length_eq.symm, .inr ⟨hmem, ?_⟩, ?_, ?_, ?_⟩
  · simp [insert, length_insertIdx, hr.tokens]
  · rw [erase_insert, erase_insert]
  · simp [insert, getElem?_insertIdx_of_lt, hl]
  · simp [insert, length_insertIdx, hl]
  · simp [insert, length_insertIdx]

end Exact

-- Wherever a session has come to, an object type that is made a dimension of a request is found among
-- its dimensions, if the answer can be broken down by it.
theorem insertDimension_detected (hm : m.Legible) (h₀ : Session.start m = .ok s₀)
    (h : Reached s₀ s) (hr : r.Exact) (hp : p.isObjectType)
    (hid : Term.Identified (p :: r.meanings.map Meaning.asTerm)) (hpivot : ¬p.equals pivot)
    (htarget : ¬p.equals target) (hlead : ¬m.graph.LeadsTo p target) :
    ∃ i r', r.insertDimension (.term p) = .ok r' ∧ r.MadeDimension r' p i ∧
      ∃ ds s', (r'.dimensions pivot target).Gives s ds s' ∧ ∃ v, (i + 1, v) ∈ ds := by
  have made : ∃ i r', r.insertDimension (.term p) = .ok r' ∧ r'.Fitting ∧
      r.MadeDimension r' p i := by
    by_cases hmem : .term p ∈ r.meanings
    case pos => exact madeDimension_of_mem hr hp hid hmem
    case neg => exact madeDimension_of_not_mem hr hp hid hmem
  have ⟨i, r', hi, hf, hd⟩ := made
  refine ⟨i, r', hi, hd, ?_⟩
  exact exists_dimension_of_per hm.graph (h.legible hm h₀) hf hd.per hd.keyword hd.meaning hpivot
    htarget hlead

namespace Employment

open SessionM.Dwelling (works)

theorem request_exact : request.Exact where
  fitting := request_fitting
  tokens  := rfl
  only i n hn ht := by
    have hi : i < 5 := (List.getElem?_eq_some_iff.mp hn).1
    interval_cases i
    all_goals
      obtain rfl := Option.some.inj hn
      first | rfl | cases ht

theorem identified : Term.Identified (person :: request.meanings.map asTerm) := by
  simp only [Term.Identified, request, map_cons, map_nil, forall_mem_cons]
  simp [person, employer, Path.Dwellings.type, Path.Dwellings.element, asTerm,
    nothing, BEq.beq, Term.same, Term.serial?]

-- Persons are mentioned in the request, and made a dimension of it once more.
theorem persons_detected : works.Legible ∧ request.Exact ∧ ∃ s₀, Session.start works = .ok s₀ ∧
    Reached s₀ s₀ ∧ ¬works.graph.LeadsTo person firm ∧
    ∃ i r', request.insertDimension (.term person) = .ok r' ∧ request.MadeDimension r' person i ∧
      ∃ ds s', (r'.dimensions firm firm).Gives s₀ ds s' ∧ ∃ v, (i + 1, v) ∈ ds := by
  have ⟨s₀, h₀⟩ := start_of_fit SessionM.Dwelling.works_fit rfl
  exact ⟨works_legible, request_exact, s₀, h₀, .start, not_leadsTo,
    insertDimension_detected works_legible h₀ .start request_exact rfl identified (by decide)
      (by decide) not_leadsTo⟩

end Employment

end Request
end Inquiry
