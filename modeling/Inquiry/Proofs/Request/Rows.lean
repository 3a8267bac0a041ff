import Mathlib
import Inquiry.Proofs.Request.Patterns

/-!
Rows of dimensions. What stands in the rows of a list of keywords is told without going through
them: the dimensions are the words after an announcement, apart from a relation that leads to the
dimension right before it.
-/

namespace Inquiry
namespace Request

open Keyword

-- The word at place `k` can stand in a row of dimensions.
def Connects (ks : List String) (k : Nat) : Prop :=
  ∃ w ∈ connecting, ks[k]? = some w

def IsDimension (ks : List String) (k : Nat) : Prop :=
  ∃ w ∈ [objectType, category, relation], ks[k]? = some w

def IsLeadable (ks : List String) (k : Nat) : Prop :=
  ks[k]? = some objectType ∨ ks[k]? = some category

-- Apart from unknown words, place `k` is followed by a preposition and the relation at place `v`.
def LedBy (ks : List String) (k v : Nat) : Prop :=
  ∃ p, k < p ∧ Blank ks k p ∧ ks[p]? = some prep ∧
    p < v ∧ Blank ks p v ∧ ks[v]? = some relation

def Led (ks : List String) (k : Nat) : Prop :=
  IsLeadable ks k ∧ ∃ v, LedBy ks k v

-- One of the two words after place `k` is unknown.
def Gap (ks : List String) (k : Nat) : Prop :=
  ks[k + 1]? = some unknown ∨ ks[k + 2]? = some unknown

-- The dimension at place `k` is followed at once by a preposition and a relation.
def LedAtOnce (ks : List String) (k : Nat) : Prop :=
  IsLeadable ks k ∧ ks[k + 1]? = some prep ∧ ks[k + 2]? = some relation

-- The word at place `k` is the relation that leads to the dimension two places before it, which is
-- not before place `j`.
def PassedFrom (ks : List String) (j k : Nat) : Prop :=
  ∃ m, j ≤ m ∧ k = m + 2 ∧ LedAtOnce ks m

-- The place that is noted with the dimension at place `k`.
def Noted (ks : List String) (k v : Nat) : Prop :=
  (Led ks k ∧ v = k + 2) ∨ (¬Led ks k ∧ v = k)

-- The place `k` is in a row that is announced at place `i` or after it.
def AnnouncedFrom (ks : List String) (i k : Nat) : Prop :=
  ∃ o, i ≤ o ∧ Announces ks o ∧ o < k ∧ ∀ x, o < x → x ≤ k → Connects ks x

-- A row from one place up to another one, with what is noted in it.
inductive Row (ks : List String) : Nat → Assoc Nat Nat → Nat → Prop
  | done : ¬Connects ks j → Row ks j [] j
  | led : Led ks j → Row ks (j + 3) ds n → Row ks j ((j, j + 2) :: ds) n
  | alone : IsDimension ks j → ¬Led ks j → Row ks (j + 1) ds n → Row ks j ((j, j) :: ds) n
  | other : Connects ks j → ¬IsDimension ks j → Row ks (j + 1) ds n → Row ks j ds n

variable {ks : List String} {i j k m n v : Nat} {ds : Assoc Nat Nat}

theorem IsDimension.connects (h : IsDimension ks k) : Connects ks k := by
  obtain ⟨w, hw, hk⟩ := h
  refine ⟨w, ?_, hk⟩
  simp only [List.mem_cons, List.not_mem_nil, or_false] at hw
  obtain rfl | rfl | rfl := hw <;> decide

theorem IsLeadable.dimension (h : IsLeadable ks k) : IsDimension ks k := by
  obtain hk | hk := h <;> exact ⟨_, by simp, hk⟩

theorem Led.dimension (h : Led ks k) : IsDimension ks k :=
  h.left.dimension

theorem not_isDimension_of_word {w : String} (hk : ks[k]? = some w)
    (hw : w ∉ [objectType, category, relation]) : ¬IsDimension ks k := by
  rintro ⟨w', hw', hk'⟩
  exact hw (Option.some.inj (hk.symm.trans hk') ▸ hw')

theorem LedAtOnce.led (h : LedAtOnce ks k) : Led ks k := by
  obtain ⟨hl, hp, hr⟩ := h
  refine ⟨hl, k + 2, k + 1, by omega, ?_, hp, by omega, ?_, hr⟩ <;>
    exact fun x hx hx' => absurd hx' (by omega)

theorem Connects.lt (h : Connects ks k) : k < ks.length := by
  obtain ⟨w, _, hk⟩ := h
  exact (List.getElem?_eq_some_iff.mp hk).1

theorem LedBy.next (h : LedBy ks k v) :
    (ks[k + 1]? = some prep ∧ ks[k + 2]? = some relation ∧ v = k + 2) ∨
    (ks[k + 1]? = some prep ∧ ks[k + 2]? = some unknown ∧ k + 2 < v) ∨
    (ks[k + 1]? = some unknown ∧ ks[k + 2]? = some prep ∧ k + 2 < v) ∨
    (ks[k + 1]? = some unknown ∧ ks[k + 2]? = some unknown ∧ k + 2 < v) := by
  obtain ⟨p, hkp, hblank, hp, hpv, hblank', hv⟩ := h
  obtain rfl | hp₁ : p = k + 1 ∨ k + 1 < p := by omega
  case inl =>
    obtain rfl | hv₂ : v = k + 2 ∨ k + 2 < v := by omega
    · exact .inl ⟨hp, hv, rfl⟩
    · exact .inr (.inl ⟨hp, hblank' _ (by omega) hv₂, hv₂⟩)
  case inr =>
    have h₁ := hblank (k + 1) (by omega) hp₁
    obtain rfl | hp₂ : p = k + 2 ∨ k + 2 < p := by omega
    · exact .inr (.inr (.inl ⟨h₁, hp, by omega⟩))
    · exact .inr (.inr (.inr ⟨h₁, hblank _ (by omega) hp₂, by omega⟩))

theorem Led.connects (h : Led ks j) {x : Nat} (hj : j ≤ x) (hx : x < j + 3) : Connects ks x := by
  have of_word {y : Nat} {w : String} (hw : w ∈ connecting) (hy : ks[y]? = some w) :
      Connects ks y := ⟨w, hw, hy⟩
  obtain ⟨v, hv⟩ := h.right
  obtain rfl | rfl | rfl : x = j ∨ x = j + 1 ∨ x = j + 2 := by omega
  · exact h.dimension.connects
  · obtain ⟨h₁, _⟩ | ⟨h₁, _⟩ | ⟨h₁, _⟩ | ⟨h₁, _⟩ := hv.next <;> exact of_word (by decide) h₁
  · obtain ⟨_, h₂, _⟩ | ⟨_, h₂, _⟩ | ⟨_, h₂, _⟩ | ⟨_, h₂, _⟩ := hv.next <;>
      exact of_word (by decide) h₂

-- Of the two words after a dimension that is led to, none can be led to, and only the relation that
-- leads to it at once can be a dimension.
theorem Led.next_words (h : Led ks j) (hj : j < k) (hk : k < j + 3) :
    ¬IsLeadable ks k ∧ (IsDimension ks k → PassedFrom ks j k) := by
  obtain ⟨v, hv⟩ := h.right
  have neither {x : Nat} (hx : ¬IsDimension ks x) :
      ¬IsLeadable ks x ∧ (IsDimension ks x → PassedFrom ks j x) :=
    ⟨fun h => hx h.dimension, fun h => absurd h hx⟩
  obtain rfl | rfl : k = j + 1 ∨ k = j + 2 := by omega
  case inl =>
    apply neither
    obtain ⟨h₁, _⟩ | ⟨h₁, _⟩ | ⟨h₁, _⟩ | ⟨h₁, _⟩ := hv.next <;>
      exact not_isDimension_of_word h₁ (by decide)
  case inr =>
    obtain ⟨h₁, h₂, _⟩ | ⟨_, h₂, _⟩ | ⟨_, h₂, _⟩ | ⟨_, h₂, _⟩ := hv.next
    · refine ⟨?_, fun _ => ⟨j, le_rfl, rfl, h.left, h₁, h₂⟩⟩
      rw [IsLeadable, h₂]
      decide
    all_goals exact neither (not_isDimension_of_word h₂ (by decide))

theorem PassedFrom.mono {j' : Nat} (h : PassedFrom ks j k) (hj : j' ≤ j) : PassedFrom ks j' k := by
  obtain ⟨m, hm, hk⟩ := h
  exact ⟨m, hj.trans hm, hk⟩

-- The words that a row passes over are not counted from another place either.
theorem Led.passedFrom_iff (h : Led ks j) (hk : j + 3 ≤ k) :
    PassedFrom ks (j + 3) k ↔ PassedFrom ks j k := by
  constructor
  · exact fun h => h.mono (by omega)
  · rintro ⟨m, hm, rfl, hl⟩
    refine ⟨m, ?_, rfl, hl⟩
    by_contra hlt
    exact (h.next_words (k := m) (by omega) (by omega)).left hl.left

theorem not_passedFrom_self : ¬PassedFrom ks k k := by
  rintro ⟨m, hm, hk, _⟩
  omega

theorem passedFrom_succ_iff (h : ¬Led ks j) : PassedFrom ks (j + 1) k ↔ PassedFrom ks j k := by
  constructor
  · exact fun h => h.mono (by omega)
  · rintro ⟨m, hm, hkm, hl⟩
    have hne : m ≠ j := by
      rintro rfl
      exact h hl.led
    exact ⟨m, by omega, hkm, hl⟩

theorem LedBy.unique {v' : Nat} (h : LedBy ks k v) (h' : LedBy ks k v') : v = v' := by
  obtain ⟨p, hkp, hblank, hp, hpv, hblank', hv⟩ := h
  obtain ⟨q, hkq, hblankq, hq, hqv, hblankq', hv'⟩ := h'
  have known {x : Nat} {w : String} (hx : ks[x]? = some w) (hw : w ≠ unknown) :
      ks[x]? ≠ some unknown := fun h => hw (Option.some.inj (hx.symm.trans h))
  obtain hlt | rfl | hlt := lt_trichotomy p q
  · exact absurd (hblankq p hkp hlt) (known hp (by decide))
  · obtain hlt | rfl | hlt := lt_trichotomy v v'
    · exact absurd (hblankq' v hpv hlt) (known hv (by decide))
    · rfl
    · exact absurd (hblank' v' hqv hlt) (known hv' (by decide))
  · exact absurd (hblank q hkq hlt) (known hq (by decide))

theorem LedBy.eq_add_two_iff (h : LedBy ks k v) : v = k + 2 ↔ ¬Gap ks k := by
  have ne : prep ≠ unknown := by decide
  have ne' : relation ≠ unknown := by decide
  obtain ⟨h₁, h₂, hv⟩ | ⟨h₁, h₂, hv⟩ | ⟨h₁, h₂, hv⟩ | ⟨h₁, h₂, hv⟩ := h.next <;>
    simp only [Gap, h₁, h₂, Option.some.injEq, ne, ne', or_false, or_true, not_true,
      not_false_eq_true, iff_true, iff_false, or_self] <;> omega

-- What is noted with a dimension is its own place or the relation that leads to it, except where an
-- unknown word was counted.
theorem Noted.points_iff (h : Noted ks k v) : (v = k ∨ LedBy ks k v) ↔ ¬(Led ks k ∧ Gap ks k) := by
  obtain ⟨hl, rfl⟩ | ⟨hl, rfl⟩ := h
  case inl =>
    obtain ⟨w, hw⟩ := hl.right
    have hne : k + 2 ≠ k := by omega
    have hby : LedBy ks k (k + 2) ↔ w = k + 2 := ⟨hw.unique, fun h => h ▸ hw⟩
    simp only [hne, false_or, hby, hw.eq_add_two_iff, hl, true_and]
  case inr => simp [hl]

theorem Noted.eq_iff {w : Nat} (h : Noted ks k w) : Noted ks k v ↔ v = w := by
  obtain ⟨hl, rfl⟩ | ⟨hl, rfl⟩ := h <;> simp [Noted, hl]

theorem exists_noted (ks : List String) (k : Nat) : ∃ v, Noted ks k v := by
  by_cases hl : Led ks k
  case pos => exact ⟨k + 2, .inl ⟨hl, rfl⟩⟩
  case neg => exact ⟨k, .inr ⟨hl, rfl⟩⟩

theorem matchAt_led (w : String) (hw : w ≠ unknown) :
    (matchAt [w, prep, relation] 0 j ks true == some j) = true ↔
      ks[j]? = some w ∧ ∃ v, LedBy ks j v := by
  have hne : prep ≠ unknown := by decide
  have hne' : relation ≠ unknown := by decide
  rw [beq_iff_eq, matchAt_zero_iff (by simp), begins_cons_cons]
  simp only [begins_cons_cons, begins_singleton, hw, hne, hne', ne_eq, not_false_eq_true, and_true,
    true_and, LedBy]
  grind

theorem led_iff : ((matchAt [objectType, prep, relation] 0 j ks true == some j) ||
    (matchAt [category, prep, relation] 0 j ks true == some j)) = true ↔ Led ks j := by
  rw [Bool.or_eq_true, matchAt_led _ (by decide), matchAt_led _ (by decide), ← or_and_right]
  rfl

theorem contains_iff {ws : List String} (h : j < ks.length) :
    ws.contains ks[j] = true ↔ ∃ w ∈ ws, ks[j]? = some w := by
  simp [List.getElem?_eq_getElem h]

theorem row_isRow (ks : List String) (j : Nat) : Row ks j (row ks j).1 (row ks j).2 := by
  fun_induction row ks j
  case case1 j hj hc led hl ds n he ih =>
    rw [he] at ih
    exact .led (led_iff.mp hl) ih
  case case2 j hj hc led hl ds n he hd ih =>
    rw [he] at ih
    exact .alone ((contains_iff hj).mp hd) (fun h => hl (led_iff.mpr h)) ih
  case case3 j hj hc led hl ds n he hd ih =>
    rw [he] at ih
    exact .other ((contains_iff hj).mp hc) (fun h => hd ((contains_iff hj).mpr h)) ih
  case case4 j hj hc => exact .done fun h => hc ((contains_iff hj).mpr h)
  case case5 j hj => exact .done fun h => hj h.lt

namespace Row

theorem le (h : Row ks j ds n) : j ≤ n := by
  induction h
  case done                   => rfl
  case led ih                 => omega
  case alone ih | other ih => omega

theorem not_connects (h : Row ks j ds n) : ¬Connects ks n := by
  induction h
  case done h => exact h
  case led ih | alone ih | other ih => exact ih

theorem connects (h : Row ks j ds n) {x : Nat} (hj : j ≤ x) (hn : x < n) : Connects ks x := by
  induction h
  case done => omega
  case led j ds n hl _ ih =>
    by_cases hx : x < j + 3
    case pos => exact hl.connects hj hx
    case neg => exact ih (by omega) hn
  case alone j ds n hd _ _ ih =>
    obtain rfl | hx := hj.eq_or_lt
    · exact hd.connects
    · exact ih hx hn
  case other j ds n hc _ _ ih =>
    obtain rfl | hx := hj.eq_or_lt
    · exact hc
    · exact ih hx hn

-- A dimension is noted at place `j`, and the row goes on at another place. What lies between the two
-- is no dimension, or is passed over.
theorem mem_cons_iff {next w : Nat} (hj : j < next) (hn : next ≤ n) (hd : IsDimension ks j)
    (hw : Noted ks j w) (hpast : ∀ x, j < x → x < next → IsDimension ks x → PassedFrom ks j x)
    (hpassed : ∀ x, next ≤ x → (PassedFrom ks next x ↔ PassedFrom ks j x))
    (h : (k, v) ∈ ds ↔
      (next ≤ k ∧ k < n) ∧ IsDimension ks k ∧ ¬PassedFrom ks next k ∧ Noted ks k v) :
    (k, v) ∈ (j, w) :: ds ↔
      (j ≤ k ∧ k < n) ∧ IsDimension ks k ∧ ¬PassedFrom ks j k ∧ Noted ks k v := by
  rw [List.mem_cons, Prod.mk.injEq]
  refine (or_congr_right h).trans ?_
  obtain rfl | hk | hk | hk : k = j ∨ k < j ∨ (j < k ∧ k < next) ∨ next ≤ k := by omega
  case inl =>
    have hnext : ¬next ≤ k := by omega
    have hkn : k < n := by omega
    simp [hnext, hkn, hd, not_passedFrom_self, hw.eq_iff]
  case inr.inl => constructor <;> omega
  case inr.inr.inl =>
    constructor
    · omega
    · rintro ⟨_, hdk, hp, _⟩
      exact absurd (hpast k hk.left hk.right hdk) hp
  case inr.inr.inr =>
    have hne : k ≠ j := by omega
    have hjk : j ≤ k := by omega
    simp [hpassed k hk, hne, hk, hjk]

theorem mem_iff (h : Row ks j ds n) : (k, v) ∈ ds ↔
    (j ≤ k ∧ k < n) ∧ IsDimension ks k ∧ ¬PassedFrom ks j k ∧ Noted ks k v := by
  induction h
  case done j _ =>
    have hk : ¬(j ≤ k ∧ k < j) := by omega
    simp [hk]
  case led j ds n hl hrow ih =>
    refine mem_cons_iff (by omega) hrow.le hl.dimension (.inl ⟨hl, rfl⟩) ?_ ?_ ih
    · exact fun x hx hx' hd => (hl.next_words hx hx').right hd
    · exact fun x hx => hl.passedFrom_iff hx
  case alone j ds n hd hl hrow ih =>
    refine mem_cons_iff (by omega) hrow.le hd (.inr ⟨hl, rfl⟩) ?_ ?_ ih
    · exact fun x hx hx' => absurd hx' (by omega)
    · exact fun x _ => passedFrom_succ_iff hl
  case other j ds n hc hd hrow ih =>
    have hl : ¬Led ks j := fun h => hd h.dimension
    rw [ih, passedFrom_succ_iff hl]
    constructor
    · rintro ⟨hk, h⟩
      exact ⟨by omega, h⟩
    · rintro ⟨hk, hk', h⟩
      have hne : k ≠ j := by
        rintro rfl
        exact hd hk'
      exact ⟨by omega, hk', h⟩

theorem sorted (h : Row ks j ds n) : ds.Pairwise fun d d' => d.1 < d'.1 := by
  induction h
  case done => exact .nil
  case led j ds n _ hrow ih =>
    refine .cons (fun d hd => ?_) ih
    have := (hrow.mem_iff.mp hd).left.left
    dsimp only
    omega
  case alone j ds n _ _ hrow ih => exact .cons (fun d hd => (hrow.mem_iff.mp hd).left.left) ih
  case other ih => exact ih

end Row

theorem announces_iff {o : Nat} : Announces ks o ↔ ks[o]? = some per ∨
    (ks[o]? = some prep ∧ ∃ n, o < n ∧ Blank ks o n ∧
      (ks[n]? = some all ∨ ks[n]? = some objectType)) := by
  have hper : per ≠ unknown := by decide
  have hprep : prep ≠ unknown := by decide
  have hall : all ≠ unknown := by decide
  have hot : objectType ≠ unknown := by decide
  simp only [Announces, announcing, List.mem_cons, List.not_mem_nil, or_false, exists_eq_or_imp,
    exists_eq_left, begins_cons_cons, begins_singleton, ne_eq, hper, hprep, hall, hot,
    not_false_eq_true, and_true, ← and_or_left, ← exists_or]

theorem Announces.lt {o : Nat} (h : Announces ks o) : o < ks.length := by
  obtain ⟨ps, _, hb⟩ := h
  exact hb.lt

theorem Announces.passedFrom_iff {o : Nat} (h : Announces ks o) (hk : o < k) :
    PassedFrom ks (o + 1) k ↔ PassedFrom ks 0 k := by
  constructor
  · exact fun h => h.mono (by omega)
  · rintro ⟨m, _, rfl, hl, hp, hr⟩
    refine ⟨m, ?_, rfl, hl, hp, hr⟩
    by_contra hlt
    rw [announces_iff] at h
    obtain rfl | rfl : o = m ∨ o = m + 1 := by omega
    case inl =>
      -- An announcement starts with no word that can be led to.
      obtain h | ⟨h, _⟩ := h <;> rw [IsLeadable, h] at hl <;> revert hl <;> decide
    case inr =>
      -- The preposition of an announcement is followed by another word than a relation.
      obtain h | ⟨_, n, hn, hblank, h⟩ := h
      · rw [h] at hp
        revert hp
        decide
      · obtain rfl | hlt : n = m + 2 ∨ m + 2 < n := by omega
        · rw [hr] at h
          revert h
          decide
        · rw [hblank _ (by omega) hlt] at hr
          revert hr
          decide

theorem announcedFrom_iff {o : Nat} (ho : announcement ks i = some o)
    (hrow : Row ks (o + 1) ds n) :
    AnnouncedFrom ks i k ↔ (o + 1 ≤ k ∧ k < n) ∨ AnnouncedFrom ks n k := by
  obtain ⟨hio, ho, hfirst⟩ := announcement_eq_some_iff.mp ho
  have hn := hrow.le
  constructor
  · rintro ⟨o', hio', ho', hok, hc⟩
    have hoo' : o ≤ o' := by
      by_contra hlt
      exact hfirst o' hio' (by omega) ho'
    by_cases hno' : n ≤ o'
    case pos => exact .inr ⟨o', hno', ho', hok, hc⟩
    case neg =>
      left
      refine ⟨by omega, ?_⟩
      by_contra hnk
      exact hrow.not_connects (hc n (by omega) (by omega))
  · rintro (⟨hok, hkn⟩ | ⟨o', hno', ho', hok, hc⟩)
    · exact ⟨o, hio, ho, by omega, fun x hx hxk => hrow.connects hx (by omega)⟩
    · exact ⟨o', by omega, ho', hok, hc⟩

theorem mem_rows_iff : (k, v) ∈ rows ks i ↔
    AnnouncedFrom ks i k ∧ IsDimension ks k ∧ ¬PassedFrom ks 0 k ∧ Noted ks k v := by
  fun_induction rows ks i
  case case1 i hi hnone =>
    have : ¬AnnouncedFrom ks i k := by
      rintro ⟨o, hio, ho, _⟩
      exact announcement_eq_none_iff.mp hnone o hio ho
    simp [this]
  case case2 i hi o ho ds n he ih =>
    have hrow := row_isRow ks (o + 1)
    rw [he] at hrow
    obtain ⟨hio, ha, _⟩ := announcement_eq_some_iff.mp ho
    have hn := hrow.le
    have hmax : max n (i + 1) = n := by omega
    rw [hmax] at ih ⊢
    have hpassed : ((o + 1 ≤ k ∧ k < n) ∧
        IsDimension ks k ∧ ¬PassedFrom ks (o + 1) k ∧ Noted ks k v) ↔ ((o + 1 ≤ k ∧ k < n) ∧
        IsDimension ks k ∧ ¬PassedFrom ks 0 k ∧ Noted ks k v) :=
      and_congr_right fun hk => by rw [ha.passedFrom_iff hk.left]
    rw [List.mem_append, hrow.mem_iff, ih, announcedFrom_iff ho hrow, hpassed, or_and_right]
  case case3 i hi =>
    have : ¬AnnouncedFrom ks i k := by
      rintro ⟨o, hio, ho, _⟩
      have := ho.lt
      omega
    simp [this]

theorem rows_sorted (ks : List String) (i : Nat) :
    (rows ks i).Pairwise fun d d' => d.1 < d'.1 := by
  fun_induction rows ks i
  case case1 | case3 => exact .nil
  case case2 i hi o ho ds n he ih =>
    have hrow := row_isRow ks (o + 1)
    rw [he] at hrow
    refine List.pairwise_append.mpr ⟨hrow.sorted, ih, fun d hd d' hd' => ?_⟩
    have hdn := (hrow.mem_iff.mp hd).left.right
    obtain ⟨o', hno', _, hod', _⟩ := (mem_rows_iff.mp hd').left
    dsimp only at hdn hod'
    omega

end Request
end Inquiry
