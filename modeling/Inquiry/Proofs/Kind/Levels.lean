import Mathlib
import Inquiry.Kind.Level

/-!
Levels as partitions. Between levels whose categories share no atoms, to be finer is an order up to
the names of the categories, and the sorted atoms tell whether two levels cover the same.
-/

namespace Inquiry
namespace Category

variable {c d : Category} {as bs cs : List Category}

def spanSet (c : Category) : Set String := {a | a ∈ c.span}

-- What the categories of a level cover together.
def covered (cs : List Category) : Set String := {a | ∃ c ∈ cs, a ∈ c.spanSet}

def spans (cs : List Category) : Set (Set String) := {s | ∃ c ∈ cs, c.spanSet = s}

structure Apart (cs : List Category) : Prop where
  disjoint : cs.Pairwise fun c d => Disjoint c.spanSet d.spanSet
  nodup    : ∀ c ∈ cs, c.span.Nodup

theorem includes_iff : c.includes d ↔ d.spanSet ⊆ c.spanSet := by
  simp [includes, spanSet, Set.subset_def]

theorem spanSet_nonempty (c : Category) : c.spanSet.Nonempty := by
  rw [spanSet, span]
  split
  case isTrue => exact ⟨c.name, by simp⟩
  case isFalse h => exact List.exists_mem_of_ne_nil _ (by simpa using h)

theorem finer_iff : finer as bs ↔ ∀ c ∈ as, ∃ d ∈ bs, c.spanSet ⊆ d.spanSet := by
  simp [finer, includes_iff]

theorem Apart.nodup_flatMap (h : Apart cs) : (cs.flatMap span).Nodup := by
  refine List.nodup_flatMap.mpr ⟨h.nodup, h.disjoint.imp ?_⟩
  intro c d hcd a hc hd
  exact Set.disjoint_left.mp hcd hc hd

theorem Apart.eq_of_subset (h : Apart cs) (hc : c ∈ cs) (hd : d ∈ cs)
    (hs : c.spanSet ⊆ d.spanSet) : c = d := by
  by_contra hne
  obtain ⟨a, ha⟩ := c.spanSet_nonempty
  have : Std.Symm fun c d : Category => Disjoint c.spanSet d.spanSet := ⟨fun _ _ h => h.symm⟩
  exact Set.disjoint_left.mp (h.disjoint.forall hc hd hne) ha (hs ha)

theorem equalSpan_iff_perm : equalSpan as bs ↔ (as.flatMap span).Perm (bs.flatMap span) := by
  rw [equalSpan, beq_iff_eq, atoms_sorted, atoms_sorted]
  constructor
  · intro h
    have ha := List.mergeSort_perm (as.flatMap span) (· ≤ ·)
    exact ha.symm.trans (h ▸ List.mergeSort_perm (bs.flatMap span) (· ≤ ·))
  · intro h
    refine List.Perm.eq_of_pairwise (fun _ _ _ _ => le_antisymm) (List.pairwise_mergeSort' _ _)
      (List.pairwise_mergeSort' _ _) ?_
    exact (List.mergeSort_perm _ _).trans (h.trans (List.mergeSort_perm _ _).symm)

theorem Apart.spans_subset (ha : Apart as) (hab : finer as bs) (hba : finer bs as) :
    spans as ⊆ spans bs := by
  rw [finer_iff] at hab hba
  rintro _ ⟨c, hc, rfl⟩
  obtain ⟨d, hd, hcd⟩ := hab c hc
  obtain ⟨c', hc', hdc⟩ := hba d hd
  obtain rfl := ha.eq_of_subset hc hc' (hcd.trans hdc)
  exact ⟨d, hd, hdc.antisymm hcd⟩

theorem finer_of_spans_subset (h : spans as ⊆ spans bs) : finer as bs := by
  rw [finer_iff]
  intro c hc
  obtain ⟨d, hd, he⟩ := h ⟨c, hc, rfl⟩
  exact ⟨d, hd, he.ge⟩

-- To be finer is a preorder. It is an order up to names between levels that are apart.
theorem levels_ordered (as bs cs : List Category) :
    finer as as ∧ (finer as bs → finer bs cs → finer as cs) ∧
    (finer as bs → covered as ⊆ covered bs) ∧
    (Apart as → Apart bs → (equalSpan as bs ↔ covered as = covered bs) ∧
      (finer as bs ∧ finer bs as ↔ spans as = spans bs)) := by
  refine ⟨finer_of_spans_subset subset_rfl, ?_, ?_, ?_⟩
  · simp only [finer_iff]
    intro hab hbc c hc
    obtain ⟨d, hd, hcd⟩ := hab c hc
    obtain ⟨e, he, hde⟩ := hbc d hd
    exact ⟨e, he, hcd.trans hde⟩
  · rw [finer_iff]
    rintro hab a ⟨c, hc, ha⟩
    obtain ⟨d, hd, hcd⟩ := hab c hc
    exact ⟨d, hd, hcd ha⟩
  · intro ha hb
    constructor
    · rw [equalSpan_iff_perm, List.perm_ext_iff_of_nodup ha.nodup_flatMap hb.nodup_flatMap]
      simp [covered, Set.ext_iff, spanSet]
    · constructor
      · rintro ⟨hab, hba⟩
        exact (ha.spans_subset hab hba).antisymm (hb.spans_subset hba hab)
      · intro h
        exact ⟨finer_of_spans_subset h.subset, finer_of_spans_subset h.superset⟩

theorem south_levelled :
    finer [⟨"Limburg", []⟩, ⟨"Zeeland", []⟩] [⟨"Zuid", ["Zeeland", "Limburg"]⟩] ∧
      covered [⟨"Limburg", []⟩, ⟨"Zeeland", []⟩] =
        covered [⟨"Zuid", ["Zeeland", "Limburg"]⟩] := by
  have hp : Apart [⟨"Limburg", []⟩, ⟨"Zeeland", []⟩] :=
    ⟨by simp [spanSet, span], by simp [span]⟩
  have hz : Apart [⟨"Zuid", ["Zeeland", "Limburg"]⟩] := ⟨by simp, by simp [span]⟩
  obtain ⟨-, -, -, h⟩ := levels_ordered [⟨"Limburg", []⟩, ⟨"Zeeland", []⟩]
    [⟨"Zuid", ["Zeeland", "Limburg"]⟩] []
  exact ⟨by decide, (h hp hz).1.mp (by simp [equalSpan_iff_perm, span, List.Perm.swap])⟩

end Category
end Inquiry
