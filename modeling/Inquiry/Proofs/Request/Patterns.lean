import Mathlib
import Inquiry.Request.Dimension

/-!
Patterns of keywords. A pattern is held against the known words only, or against all words; it is
found at the first place from which these start with it, and each of its entries has a place there.
-/

namespace Inquiry

open List

namespace Keyword

variable {ks ps : List String} {p : String} {i j o r : Nat} {skip : Bool}

def knownFrom (ks : List String) (i : Nat) : List String :=
  (ks.drop i).filter (· ≠ unknown)

-- A known word stands at place `i`, and the pattern is read from there on if unknown words are left
-- out.
def Begins (ks : List String) (i : Nat) (ps : List String) : Prop :=
  (∃ k, ks[i]? = some k ∧ k ≠ unknown) ∧ ps <+: knownFrom ks i

-- The words between two places are unknown.
def Blank (ks : List String) (i j : Nat) : Prop :=
  ∀ x, i < x → x < j → ks[x]? = some unknown

-- The words that a pattern is held against, each with its place, where the first place is `i`.
def kept (skip : Bool) (ks : List String) (i : Nat) : List (String × Nat) :=
  (ks.zipIdx i).filter fun w => !(skip && w.1 == unknown)

-- A known word stands at place `i`, and the words that are kept from there on start with the pattern.
def Starts (skip : Bool) (ks : List String) (i : Nat) (ps : List String) : Prop :=
  (∃ k, ks[i]? = some k ∧ k ≠ unknown) ∧ ps <+: (kept skip (ks.drop i) i).map (·.1)

theorem kept_cons (skip : Bool) (k : String) (ks : List String) (i : Nat) :
    kept skip (k :: ks) i =
      if skip && k == unknown then kept skip ks (i + 1) else (k, i) :: kept skip ks (i + 1) := by
  rw [kept, zipIdx_cons, filter_cons]
  cases skip && k == unknown <;> rfl

theorem words_kept_true (ks : List String) (i : Nat) :
    (kept true ks i).map (·.1) = ks.filter (· ≠ unknown) := by
  induction ks generalizing i
  case nil => rfl
  case cons k ks ih => by_cases hk : k = unknown <;> simp [kept_cons, hk, ih]

theorem starts_true : Starts true ks i ps ↔ Begins ks i ps := by
  rw [Starts, words_kept_true, Begins, knownFrom]

-- While the pattern is read, the place of the entry that is wanted is that of its last trial.
theorem walk_eq_some_iff {want : Nat} {found : Option Nat} :
    walk skip want ks ps j i found = some r ↔ ps <+: (kept skip ks i).map (·.1) ∧
      (if j ≤ want ∧ want < j + ps.length then ((kept skip ks i).map (·.2))[want - j]? else found)
        = some r := by
  induction ks generalizing ps i j found
  case nil =>
    cases ps
    case nil       => simp [walk, show ¬(j ≤ want ∧ want < j) by omega]
    case cons p ps => simp [walk, kept]
  case cons k ks ih =>
    cases ps
    case nil       => simp [walk, show ¬(j ≤ want ∧ want < j) by omega]
    case cons p ps =>
      rw [walk, kept_cons]
      cases skip && k == unknown
      case true =>
        simp only [Bool.not_true, Bool.and_false, Bool.false_eq_true, if_false, if_true, ih]
        grind
      case false =>
        by_cases hp : p = k
        case neg => simp [hp, cons_prefix_cons]
        case pos =>
          simp only [hp, bne_self_eq_false, Bool.false_and, Bool.false_eq_true, if_false, ih,
            map_cons, cons_prefix_cons, true_and]
          grind

theorem matchAt_eq_some_iff (hj : j < ps.length) : matchAt ps j i ks skip = some r ↔
    Starts skip ks i ps ∧ ((kept skip (ks.drop i) i).map (·.2))[j]? = some r := by
  rw [matchAt, if_pos (by omega), Starts, ← head?_drop, Int.toNat_natCast, Int.toNat_natCast]
  cases ks.drop i
  case nil         => simp
  case cons k rest =>
    by_cases hk : k = unknown
    case pos => simp [hk]
    case neg => simp [hk, walk_eq_some_iff, hj]

theorem Starts.lt (h : Starts skip ks i ps) : i < ks.length := by
  obtain ⟨⟨_, hk, _⟩, _⟩ := h
  exact (List.getElem?_eq_some_iff.mp hk).1

-- Each entry of a pattern that is read has a place.
theorem matchAt_isSome_iff (hj : j < ps.length) :
    (matchAt ps j i ks skip).isSome ↔ Starts skip ks i ps := by
  simp only [Option.isSome_iff_exists, matchAt_eq_some_iff hj, exists_and_left, and_iff_left_iff_imp]
  rintro ⟨_, h⟩
  have := h.length_le
  rw [length_map] at this
  exact ⟨_, getElem?_eq_getElem (by rw [length_map]; omega)⟩

theorem Starts.exists_first (h : Starts skip ks o ps) (hio : i ≤ o) :
    ∃ y, i ≤ y ∧ y ≤ o ∧ Starts skip ks y ps ∧ ∀ x, i ≤ x → x < y → ¬Starts skip ks x ps := by
  classical
  have hex : ∃ y, i ≤ y ∧ Starts skip ks y ps := ⟨o, hio, h⟩
  obtain ⟨hiy, hy⟩ := Nat.find_spec hex
  exact ⟨_, hiy, Nat.find_min' hex ⟨hio, h⟩, hy, fun x hix hx hs => Nat.find_min hex hx ⟨hix, hs⟩⟩

theorem find?_eq_none_iff (hj : j < ps.length) :
    find? ps j i ks skip = none ↔ ∀ o, i ≤ o → ¬Starts skip ks o ps := by
  rw [find?, if_pos (by simp), Int.toNat_natCast, findSome?_eq_none_iff]
  simp only [← Option.not_isSome_iff_eq_none, matchAt_isSome_iff hj, mem_range'_1]
  exact ⟨fun h o hio hs => h o ⟨hio, by have := hs.lt; omega⟩ hs, fun h o ho => h o ho.left⟩

theorem find?_eq_of_first (hj : j < ps.length) (hio : i ≤ o) (ho : Starts skip ks o ps)
    (hx : ∀ x, i ≤ x → x < o → ¬Starts skip ks x ps) :
    find? ps j i ks skip = matchAt ps j o ks skip := by
  obtain ⟨r, hr⟩ := Option.isSome_iff_exists.mp ((matchAt_isSome_iff hj).mpr ho)
  have hlt := ho.lt
  obtain ⟨d, rfl⟩ := Nat.exists_eq_add_of_le hio
  rw [find?, if_pos (by simp), Int.toNat_natCast,
    show ks.length - i = d + (ks.length - (i + d) - 1 + 1) by omega, ← range'_append_1,
    range'_succ, findSome?_append, findSome?_eq_none_iff.mpr, findSome?_cons, hr]
  · rfl
  · simp only [← Option.not_isSome_iff_eq_none, matchAt_isSome_iff hj, mem_range'_1]
    exact fun x hm => hx x hm.left hm.right

-- A pattern is read where the words that are kept start with it, and found at the first such place.
theorem pattern_read_first (hj : j < ps.length) (ks : List String) (skip : Bool) (i : Int) :
    ((matchAt ps j i ks skip).isSome ↔ 0 ≤ i ∧ Starts skip ks i.toNat ps) ∧
    (∀ r, matchAt ps j i ks skip = some r →
      ((kept skip (ks.drop i.toNat) i.toNat).map (·.2))[j]? = some r) ∧
    (0 ≤ i → (find? ps j i ks skip = none ↔ ∀ o : Nat, i ≤ o → ¬Starts skip ks o ps) ∧
      ∀ o : Nat, i ≤ o → Starts skip ks o ps → (∀ x : Nat, i ≤ x → x < o → ¬Starts skip ks x ps) →
        find? ps j i ks skip = matchAt ps j o ks skip) := by
  by_cases hi : 0 ≤ i
  case neg => simp [matchAt, hi]
  case pos =>
    obtain ⟨i, rfl⟩ := Int.eq_ofNat_of_zero_le hi
    simp only [Nat.cast_nonneg, true_and, Int.toNat_natCast, forall_const, Nat.cast_le,
      matchAt_isSome_iff hj, find?_eq_none_iff hj]
    exact ⟨fun r hr => ((matchAt_eq_some_iff hj).mp hr).right, fun o => find?_eq_of_first hj⟩

theorem relation_read_past_unknown :
    2 < [objectType, prep, relation].length ∧
    find? [objectType, prep, relation] 2 0 [question, objectType, unknown, prep, relation] true =
      some 4 := by
  have hj : 2 < [objectType, prep, relation].length := by decide
  refine ⟨hj, (((pattern_read_first hj _ true 0).right.right le_rfl).right 1 ?_ ?_ ?_).trans rfl⟩
  · decide
  · exact ⟨⟨_, rfl, by decide⟩, by decide⟩
  · rintro x - hx ⟨-, h⟩
    obtain rfl : x = 0 := by omega
    exact absurd h (by decide)

-- The place of a first entry is the place from which the pattern is read.
theorem matchAt_zero_iff (hp : ps ≠ []) :
    matchAt ps 0 i ks true = some r ↔ i = r ∧ Begins ks i ps := by
  rw [← Nat.cast_zero, matchAt_eq_some_iff (length_pos_of_ne_nil hp), starts_true, and_comm]
  refine and_congr_left ?_
  rintro ⟨⟨k, hk, hu⟩, _⟩
  obtain ⟨hi, rfl⟩ := List.getElem?_eq_some_iff.mp hk
  rw [drop_eq_getElem_cons hi, kept_cons]
  simp [hu]

theorem exists_find? {x : Nat} (hp : ps ≠ []) (hix : i ≤ x) (hx : Begins ks x ps) :
    ∃ y ≤ x, find? ps 0 i ks true = some y := by
  obtain ⟨y, hiy, hyx, hy, hno⟩ := (starts_true.mpr hx).exists_first hix
  refine ⟨y, hyx, (find?_eq_of_first (length_pos_of_ne_nil hp) hiy hy hno).trans ?_⟩
  exact (matchAt_zero_iff hp).mpr ⟨rfl, starts_true.mp hy⟩

theorem find?_zero_iff (hp : ps ≠ []) : find? ps 0 i ks true = some o ↔
    i ≤ o ∧ Begins ks o ps ∧ ∀ x, i ≤ x → x < o → ¬Begins ks x ps := by
  have hl := length_pos_of_ne_nil hp
  simp only [← starts_true]
  constructor
  · intro ho
    have hex : ¬∀ x, i ≤ x → ¬Starts true ks x ps := by
      rw [← find?_eq_none_iff hl]
      exact fun h => absurd (h.symm.trans ho) (by simp)
    simp only [not_forall, not_not] at hex
    obtain ⟨x, hix, hx⟩ := hex
    obtain ⟨y, hiy, _, hy, hno⟩ := hx.exists_first hix
    obtain ⟨rfl, _⟩ := (matchAt_zero_iff hp).mp ((find?_eq_of_first hl hiy hy hno).symm.trans ho)
    exact ⟨hiy, hy, hno⟩
  · rintro ⟨hio, ho, hno⟩
    rw [← Nat.cast_zero, find?_eq_of_first hl hio ho hno]
    exact (matchAt_zero_iff hp).mpr ⟨rfl, starts_true.mp ho⟩

theorem knownFrom_of_known {k : String} (hk : ks[i]? = some k) (hn : k ≠ unknown) :
    knownFrom ks i = k :: knownFrom ks (i + 1) := by
  obtain ⟨hi, rfl⟩ := List.getElem?_eq_some_iff.mp hk
  rw [knownFrom, drop_eq_getElem_cons hi, filter_cons_of_pos (by simpa using hn), knownFrom]

theorem knownFrom_of_unknown (hk : ks[i]? = some unknown) :
    knownFrom ks i = knownFrom ks (i + 1) := by
  obtain ⟨hi, hk⟩ := List.getElem?_eq_some_iff.mp hk
  rw [knownFrom, drop_eq_getElem_cons hi, filter_cons_of_neg (by simp [hk]), knownFrom]

theorem Begins.lt (h : Begins ks i ps) : i < ks.length := by
  have ⟨_, hk, _⟩ := h.left
  exact (List.getElem?_eq_some_iff.mp hk).1

theorem cons_prefix_knownFrom_iff : (p :: ps) <+: knownFrom ks i ↔
    ∃ n, i ≤ n ∧ (∀ x, i ≤ x → x < n → ks[x]? = some unknown) ∧ Begins ks n (p :: ps) := by
  induction hl : ks.length - i generalizing i
  case zero =>
    have hi : knownFrom ks i = [] := by
      rw [knownFrom, drop_eq_nil_of_le (by omega), filter_nil]
    simp only [hi, prefix_nil, reduceCtorEq, false_iff, not_exists, not_and]
    intro n hin _ hb
    have := hb.lt
    omega
  case succ l ih =>
    have hi : i < ks.length := by omega
    by_cases hu : ks[i] = unknown
    case pos =>
      have hk : ks[i]? = some unknown := by rw [getElem?_eq_getElem hi, hu]
      rw [knownFrom_of_unknown hk, ih (by omega)]
      constructor
      · rintro ⟨n, hn, hblank, hb⟩
        refine ⟨n, by omega, fun x hx hxn => ?_, hb⟩
        obtain rfl | hlt := hx.eq_or_lt
        · exact hk
        · exact hblank x hlt hxn
      · rintro ⟨n, hn, hblank, hb⟩
        have hne : i ≠ n := by
          rintro rfl
          obtain ⟨⟨k, hk', hku⟩, _⟩ := hb
          exact hku (Option.some.inj (hk'.symm.trans hk))
        exact ⟨n, by omega, fun x hx => hblank x (by omega), hb⟩
    case neg =>
      have hk : ks[i]? = some ks[i] := getElem?_eq_getElem hi
      constructor
      · exact fun h => ⟨i, le_rfl, fun x hx hxi => absurd hxi (by omega), ⟨_, hk, hu⟩, h⟩
      · rintro ⟨n, hn, hblank, hb⟩
        obtain rfl | hlt := hn.eq_or_lt
        · exact hb.right
        · exact absurd (Option.some.inj (hk.symm.trans (hblank i le_rfl hlt))) hu

theorem begins_singleton : Begins ks i [p] ↔ ks[i]? = some p ∧ p ≠ unknown := by
  constructor
  · rintro ⟨⟨k, hk, hu⟩, hp⟩
    rw [knownFrom_of_known hk hu, cons_prefix_cons] at hp
    exact hp.left ▸ ⟨hk, hu⟩
  · rintro ⟨hk, hu⟩
    exact ⟨⟨p, hk, hu⟩, by simp [knownFrom_of_known hk hu]⟩

theorem begins_cons_cons {q : String} : Begins ks i (p :: q :: ps) ↔
    (ks[i]? = some p ∧ p ≠ unknown) ∧ ∃ n, i < n ∧ Blank ks i n ∧ Begins ks n (q :: ps) := by
  constructor
  · rintro ⟨⟨k, hk, hu⟩, hp⟩
    rw [knownFrom_of_known hk hu, cons_prefix_cons, cons_prefix_knownFrom_iff] at hp
    exact hp.left ▸ ⟨⟨hk, hu⟩, hp.right⟩
  · rintro ⟨⟨hk, hu⟩, h⟩
    refine ⟨⟨p, hk, hu⟩, ?_⟩
    rw [knownFrom_of_known hk hu, cons_prefix_cons, cons_prefix_knownFrom_iff]
    exact ⟨rfl, h⟩

end Keyword

namespace Request

open Keyword

variable {ks : List String} {i o : Nat}

-- The patterns that announce a row of dimensions.
def announcing : List (List String) := [[per], [prep, all], [prep, objectType]]

def Announces (ks : List String) (o : Nat) : Prop :=
  ∃ ps ∈ announcing, Begins ks o ps

theorem mem_announcing_ne_nil {ps : List String} (h : ps ∈ announcing) : ps ≠ [] := by
  rintro rfl
  simp [announcing] at h

theorem announcement_eq_some_iff : announcement ks i = some o ↔
    i ≤ o ∧ Announces ks o ∧ ∀ x, i ≤ x → x < o → ¬Announces ks x := by
  have first {ps : List String} {x : Nat} (h : ps ∈ announcing) :
      find? ps 0 i ks true = some x ↔
        i ≤ x ∧ Begins ks x ps ∧ ∀ y, i ≤ y → y < x → ¬Begins ks y ps :=
    find?_zero_iff (mem_announcing_ne_nil h)
  rw [announcement, min?_eq_some_iff, ← announcing]
  simp only [mem_filterMap, forall_exists_index, and_imp]
  constructor
  · rintro ⟨⟨ps, hps, ho⟩, hmin⟩
    have ⟨hio, hb, _⟩ := (first hps).mp ho
    refine ⟨hio, ⟨ps, hps, hb⟩, fun x hix hxo ⟨qs, hqs, hx⟩ => ?_⟩
    have ⟨y, hyx, hy⟩ := exists_find? (mem_announcing_ne_nil hqs) hix hx
    exact absurd (hmin y qs hqs hy) (by omega)
  · rintro ⟨hio, ⟨ps, hps, hb⟩, hno⟩
    refine ⟨⟨ps, hps, (first hps).mpr ⟨hio, hb, ?_⟩⟩, fun y qs hqs hy => ?_⟩
    · exact fun x hix hxo hx => hno x hix hxo ⟨ps, hps, hx⟩
    · have ⟨hiy, hy, _⟩ := (first hqs).mp hy
      by_contra hlt
      exact hno y hiy (by omega) ⟨qs, hqs, hy⟩

theorem announcement_eq_none_iff :
    announcement ks i = none ↔ ∀ x, i ≤ x → ¬Announces ks x := by
  rw [announcement, min?_eq_none_iff, filterMap_eq_nil_iff, ← announcing]
  constructor
  · rintro hnone x hix ⟨ps, hps, hx⟩
    have ⟨y, _, hy⟩ := exists_find? (mem_announcing_ne_nil hps) hix hx
    simp [hnone ps hps] at hy
  · intro hno ps hps
    cases hf : find? ps 0 i ks true
    case none   => rfl
    case some y =>
      have ⟨hiy, hy, _⟩ := (find?_zero_iff (mem_announcing_ne_nil hps)).mp hf
      exact absurd ⟨ps, hps, hy⟩ (hno y hiy)

end Request
end Inquiry
