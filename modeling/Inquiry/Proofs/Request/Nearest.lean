import Inquiry.Proofs.Request.Around

/-!
The word that a request is about. The words around the place that the network guesses are searched
outwards for one that can be meant. Only the word at the place itself can be missed, as the keyword
of relations is misspelt in its list.
-/

namespace Inquiry
namespace Keyword

def isEligible (ks : List String) (n : Int) : Bool :=
  (wordAt ks n).any eligible.contains

-- The place in the list that a guess comes down to.
def clamped (ks : List String) (guess : Int) : Int :=
  max (min guess (ks.length - 1)) 0

-- The place with a property that is nearest to `t`; of two at one distance it is the right one.
structure IsNearest (P : Int → Prop) (t n : Int) : Prop where
  holds : P n
  least : ∀ m, P m → |n - t| ≤ |m - t|
  right : ∀ m, P m → |m - t| = |n - t| → m ≤ n

def Finds (P : Int → Prop) (t : Int) : Option Int → Prop
  | some n => IsNearest P t n
  | none   => ∀ n, ¬P n

variable {ks : List String} {t n guess : Int} {d : Nat} {w : String}

theorem isEligible_of_wordAt (h : wordAt ks n = some w) : isEligible ks n ↔ w ∈ eligible := by
  simp [isEligible, h]

theorem bounds_of_isEligible (h : isEligible ks n) : 0 ≤ n ∧ n < ks.length := by
  rw [isEligible, Option.any_eq_true] at h
  obtain ⟨w, hw, _⟩ := h
  exact nonneg_of_wordAt hw

theorem lookUp_eq {c : Prop} [Decidable c] (hc : c ↔ 0 ≤ n ∧ n < ks.length) (a : α)
    (next : Except Failure α) :
    (if c then do if eligible.contains (← Sequence.get ks n) then pure a else next else next) =
      if isEligible ks n then .ok a else next := by
  split
  case isTrue h =>
    obtain ⟨w, hw⟩ := exists_wordAt (hc.mp h).left (hc.mp h).right
    simp [get_of_wordAt hw, isEligible_of_wordAt hw, pure, Except.pure]
  case isFalse h =>
    rw [if_neg]
    exact fun he => h (hc.mpr (bounds_of_isEligible he))

-- One step outwards: first to the right, then to the left.
theorem nearest_eq (ht : 0 ≤ t) (hl : t < ks.length) : nearest ks t d =
    if t + d < ks.length ∨ 0 ≤ t - d then
      if isEligible ks (t + d) then .ok (some (t + d))
      else if isEligible ks (t - d) then .ok (some (t - d))
      else nearest ks t (d + 1)
    else .ok none := by
  rw [nearest]
  simp only [lookUp_eq (show t + d < ks.length ↔ 0 ≤ t + d ∧ t + d < ks.length by omega),
    lookUp_eq (show 0 ≤ t - d ↔ 0 ≤ t - d ∧ t - d < ks.length by omega)]
  rfl

theorem nearest_finds {d : Nat} (ht : 0 ≤ t) (hl : t < ks.length) (hd : 0 < d)
    (passed : ∀ m, isEligible ks m → m ≠ t → d ≤ |m - t|) :
    ∃ r, nearest ks t d = .ok r ∧ Finds (fun m => isEligible ks m ∧ m ≠ t) t r := by
  rw [nearest_eq ht hl]
  split
  case isFalse hout =>
    -- the search has left the list on both sides
    refine ⟨none, rfl, fun m hm => ?_⟩
    have hb := bounds_of_isEligible hm.left
    have hle := passed m hm.left hm.right
    grind
  case isTrue hin =>
    split
    case isTrue he =>
      refine ⟨_, rfl, ⟨he, by omega⟩, fun m hm => ?_, fun m hm heq => ?_⟩
      · have hle := passed m hm.left hm.right
        grind
      · grind
    case isFalse he =>
      split
      case isTrue he' =>
        refine ⟨_, rfl, ⟨he', by omega⟩, fun m hm => ?_, fun m hm heq => ?_⟩
        · have hle := passed m hm.left hm.right
          grind
        · have hne : m ≠ t + d := fun h => he (h ▸ hm.left)
          grind
      case isFalse he' =>
        refine nearest_finds ht hl (by omega) fun m hm hmt => ?_
        have hle := passed m hm hmt
        have hne : m ≠ t + d := fun h => he (h ▸ hm)
        have hne' : m ≠ t - d := fun h => he' (h ▸ hm)
        grind
termination_by (max (ks.length - t) (t + 1) - d).toNat
decreasing_by omega

theorem Finds.of_ne {P : Int → Prop} {r : Option Int} (h : Finds (fun n => P n ∧ n ≠ t) t r)
    (ht : ¬P t) : Finds P t r := by
  have hP : (fun n => P n ∧ n ≠ t) = P :=
    funext fun n => propext (and_iff_left_of_imp fun hn he => ht (he ▸ hn))
  exact hP ▸ h

theorem not_finds_of_ne {P : Int → Prop} {r : Option Int} (h : Finds (fun n => P n ∧ n ≠ t) t r)
    (ht : P t) : ¬Finds P t r := by
  intro hr
  cases r
  case none => exact hr t ht
  case some n =>
    have hle : |n - t| ≤ 0 := by simpa using hr.least t ht
    exact h.holds.right (sub_eq_zero.mp (abs_nonpos_iff.mp hle))

theorem finds_some_self {P : Int → Prop} (h : P t) : Finds P t (some t) :=
  ⟨h, by simp, fun m _ hm => (sub_eq_zero.mp (by simpa using hm)).le⟩

theorem mem_settled_iff (hr : w ≠ relation) (hm : w ≠ " <otr>") : w ∈ settled ↔ w ∈ eligible := by
  simp [settled, eligible, hr, hm]

-- Whatever is guessed, the nearest word that can be meant is found, unless the guess is the place of
-- a relation: then that place is passed over.
theorem targetIndex_nearest_iff (ks : List String) (guess : Int) (h : ks ≠ []) :
    ∃ r, targetIndex ks guess = .ok r ∧
      (Finds (isEligible ks ·) (clamped ks guess) r ↔
        wordAt ks (clamped ks guess) ≠ some relation ∧
          wordAt ks (clamped ks guess) ≠ some " <otr>") ∧
      (wordAt ks (clamped ks guess) = some relation →
        Finds (fun n => isEligible ks n ∧ n ≠ clamped ks guess) (clamped ks guess) r) := by
  have hpos : 0 < ks.length := List.length_pos_iff.mpr h
  obtain ⟨t, ht⟩ : ∃ t, t = clamped ks guess := ⟨_, rfl⟩
  have hb : 0 ≤ t ∧ t < ks.length := by grind [clamped]
  obtain ⟨w, hw⟩ := exists_wordAt hb.left hb.right
  obtain ⟨r, hr, hf⟩ := nearest_finds hb.left hb.right Nat.one_pos fun m _ hm => by grind
  have he := isEligible_of_wordAt hw
  have hrun : targetIndex ks guess = if w ∈ settled then .ok (some t) else .ok r := by
    rw [targetIndex, ← clamped, ← ht, get_of_wordAt hw]
    simp [← hr, around, pure, Except.pure]
  rw [hrun, ← ht, hw]
  by_cases hrel : w = relation
  case pos =>
    have hmem : w ∈ eligible := by simp [hrel, eligible]
    refine ⟨r, by rw [hrel]; rfl, ?_, fun _ => hf⟩
    exact iff_of_false (not_finds_of_ne hf (he.mpr hmem)) (by simp [hrel])
  by_cases hmis : w = " <otr>"
  case pos =>
    have hmem : w ∉ eligible := by rw [hmis]; decide
    refine ⟨some t, by rw [hmis]; rfl, ?_, by simp [hrel]⟩
    exact iff_of_false (fun h => hmem (he.mp h.holds)) (by simp [hmis])
  -- any other word is looked up alike at the place and around it
  rw [if_congr (mem_settled_iff hrel hmis) rfl rfl]
  suffices hfinds : ∃ r', (if w ∈ eligible then .ok (some t) else .ok r) = Except.ok r' ∧
      Finds (isEligible ks ·) t r' by
    obtain ⟨r', hr', hf⟩ := hfinds
    exact ⟨r', hr', by simp [hf, hrel, hmis], by simp [hrel]⟩
  split
  case isTrue hmem  => exact ⟨_, rfl, finds_some_self (he.mpr hmem)⟩
  case isFalse hmem => exact ⟨_, rfl, hf.of_ne (mt he.mp hmem)⟩

theorem asked_relation_passed_over :
    ∃ r, targetIndex [question, relation, unknown, constant] 1 = .ok r ∧
      ¬Finds (isEligible [question, relation, unknown, constant] ·) 1 r := by
  obtain ⟨r, hr, hf, _⟩ :=
    targetIndex_nearest_iff [question, relation, unknown, constant] 1 (by simp)
  exact ⟨r, hr, fun h => (hf.mp h).left rfl⟩

end Keyword
end Inquiry
