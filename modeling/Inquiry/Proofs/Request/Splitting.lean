import Mathlib
import Inquiry.Proofs.Request.Total

/-!
Counts that are split over an object type, as for an average. The dimensions are looked for as if
the way to the split came before them in the breakdown. If there is no such way, the last one is not
found and there is no count.
-/

namespace Inquiry

open Term SessionM

namespace Request

variable {r : Request} {s : Session} {pivot target selection split b : Term} {ps : List Path}
  {numbers : List Term}

theorem yields_breakdown_unsplit (hs : s.Consistent) (he : (pivot == target) = false)
    (hb : SelectedFrom pivot selection b) (hps : ∀ p ∈ ps, ∃ d c, s.Dimension pivot p d c)
    (hr : r.Refers s) (hp : s.HasObjectType pivot) (ht : s.HasObjectType target)
    (hpt : s.graph.trails pivot.printed target.printed ≠ []) (hsp : s.HasObjectType split)
    (hst : s.graph.trails pivot.printed split.printed = []) :
    (r.breakdown pivot target selection ps split).Yields s (BrokenDown s pivot ps fun cs k =>
      ∃ d c, k.Goes d c ∧ IsTupleType .one (target :: cs) c) := by
  refine yields_breakdown hs hps (fun _ => ⟨hr, hp, ht, .inr hsp⟩) ?_
  intro s' led ps' cs hs' hext hfan hled
  obtain ⟨_, _, _, _, _, rfl, _⟩ := hsp.typeKind
  simp only [he, Bool.false_eq_true, if_false, ledTo, List.forall₂_cons_left_iff,
    List.forall₂_nil_left_iff] at hled
  obtain ⟨p, _, hpl, ⟨q, _, hq, rfl, rfl⟩, rfl⟩ := hled
  rw [Way, if_neg hpt] at hpl
  rw [Way, if_pos hst] at hq
  -- the path to the split is empty, and an empty path is not selected
  have hf : [p, q].filter (!·.isEmpty) = [p] := by simp [hq, hpl.left.ne_nil]
  have hled : Path.Fan pivot [p] [target] := .cons ⟨pivot, hpl.left, hp.typeKind.isType.whole⟩ .nil
  exact yields_brokenDown_led hs' hb (by simp) (hf.symm ▸ hled) hext hfan

-- There is a count for each combination of dimensions exactly if the split can be reached, whether
-- it is another object type or the pivot itself.
theorem totalTerm_split_iff {r : Request} {s : Session} {pivot target selection split : Term}
    {ps : List Path} {numbers : List Term}
    (h : r.AsksTotal s pivot target ps numbers selection .nothing)
    (he : (pivot == target) = false) (hps : ps ≠ []) (hsp : s.HasObjectType split) :
    ∃ x s', (r.totalTerm pivot target ps numbers selection split).Gives s x s' ∧
      (x.1 = .nothing ↔ s.graph.trails pivot.printed split.printed = []) ∧
      (s.graph.trails pivot.printed split.printed ≠ [] → Totals s pivot target ps numbers x) := by
  have ⟨b, hb⟩ := h.selected
  have ⟨ns, hns⟩ := exists_spread h.added
  have hpt : s.graph.trails pivot.printed target.printed ≠ [] := by
    cases h.reached
    case inl ht =>
      rw [ht, beq_self_eq_true] at he
      cases he
    case inr ht => exact ht.right
  by_cases hst : s.graph.trails pivot.printed split.printed = []
  case pos =>
    have hk := yields_breakdown_unsplit h.session he hb h.dimensions h.refers h.begins h.counted hpt
      hsp hst
    have hlen : (ledTo target split).length = 2 := by
      obtain ⟨_, _, _, _, _, rfl, _⟩ := hsp.typeKind
      rfl
    have ⟨x, s', hx, _, _, _, hn⟩ := yields_total_of_breakdown [] he hns h.counted hk
      (by simp) (.inr ⟨hlen, hps⟩)
    exact ⟨x, s', hx, iff_of_true (hn hlen) hst, absurd hst⟩
  case neg =>
    have ⟨x, s', hx, _, _, ht⟩ := yields_total_led h.session he hb h.dimensions hns h.refers
      h.begins h.counted hpt (.inr ⟨hsp, hst⟩)
    have hn : x.1 ≠ .nothing := by
      have ⟨_, _, _, _, hx⟩ := ht.aggregates
      rw [hx]
      nofun
    exact ⟨x, s', hx, iff_of_false hn hst, fun _ => ht⟩

-- Persons counted by hours: there is nothing if the count is split over the jobs, which it begins
-- with, and a total if it is split over the persons.
theorem persons_split_over_jobs :
    (Jobs.request.AsksTotal Jobs.session Jobs.job Jobs.person [[Jobs.hours]] [] .nothing .nothing ∧
      (Jobs.job == Jobs.person) = false) ∧
    (∃ x s', (Jobs.request.totalTerm Jobs.job Jobs.person [[Jobs.hours]] [] .nothing
      Jobs.job).Gives Jobs.session x s' ∧ x.1 = .nothing) ∧
    ∃ x s', (Jobs.request.totalTerm Jobs.job Jobs.person [[Jobs.hours]] [] .nothing
      Jobs.person).Gives Jobs.session x s' ∧
      Totals Jobs.session Jobs.job Jobs.person [[Jobs.hours]] [] x := by
  have h := Jobs.asksTotal
  have ⟨x, s', hx, hn, _⟩ := totalTerm_split_iff h rfl (by simp) h.begins
  have ⟨y, s'', hy, _, ht⟩ := totalTerm_split_iff h rfl (by simp) h.counted
  exact ⟨⟨h, rfl⟩, ⟨x, s', hx, hn.mpr (by decide)⟩, y, s'', hy, ht (by decide)⟩

end Request
end Inquiry
