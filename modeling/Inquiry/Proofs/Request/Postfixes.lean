import Mathlib
import Inquiry.Proofs.Request.Ordered
import Inquiry.Proofs.Term.Pairing

/-!
The paths to the dimensions of a request. When a path is added, those that it ends in are left out
while the list is gone through, and the path after one that is left out is passed over. That does no
harm, as none of the paths ends in another one.
-/

namespace Inquiry

open List Term

namespace Term

variable {ts us : List Term}

theorem Identified.mono (h : Identified us) (hs : ts ⊆ us) : Identified ts :=
  fun t ht u hu => h t (hs ht) u (hs hu)

theorem eq_of_beq_list (h : ∀ t ∈ ts, ∀ u ∈ us, t == u → t = u) (he : ts == us) : ts = us := by
  induction ts generalizing us
  case nil => simpa using he.symm
  case cons t ts ih =>
    cases us
    case nil => simp at he
    case cons u us =>
      have ⟨htu, hts⟩ : t == u ∧ ts == us := by simpa using he
      have hrest : ∀ t ∈ ts, ∀ u ∈ us, t == u → t = u := fun t ht u hu =>
        h t (mem_cons_of_mem _ ht) u (mem_cons_of_mem _ hu)
      rw [h t (by simp) u (by simp) htu, ih hrest hts]

end Term

namespace Path

section Sorted

variable {text : α → String} {x : α} {xs : List α}

theorem insertSorted_perm (text : α → String) (x : α) (xs : List α) :
    (insertSorted text x xs).Perm (x :: xs) := by
  induction xs
  case nil => exact .refl _
  case cons y ys ih =>
    rw [insertSorted]
    split
    · exact (ih.cons y).trans (.swap x y ys)
    · exact .refl _

theorem insertSorted_sorted (h : xs.Pairwise fun x y => text y ≤ text x) :
    (insertSorted text x xs).Pairwise fun x y => text y ≤ text x := by
  induction xs
  case nil => simp [insertSorted]
  case cons y ys ih =>
    obtain ⟨hy, hys⟩ := pairwise_cons.mp h
    rw [insertSorted]
    split
    case isTrue hlt =>
      refine .cons (fun z hz => ?_) (ih hys)
      cases mem_cons.mp ((insertSorted_perm text x ys).mem_iff.mp hz)
      case inl hz => exact hz ▸ le_of_lt hlt
      case inr hz => exact hy z hz
    case isFalse hlt =>
      have hle := le_of_not_gt hlt
      refine .cons (fun z hz => ?_) h
      cases mem_cons.mp hz
      case inl hz => exact hz ▸ hle
      case inr hz => exact (hy z hz).trans hle

end Sorted

variable {p q r : Path} {ps ps' : List Path} {i : Nat} {done : List Path}

section Identified

variable (hid : Term.Identified ps.flatten) (hp : p ∈ ps) (hq : q ∈ ps)
include hid hp hq

theorem eq_of_same : ∀ t ∈ p, ∀ u ∈ q, t == u → t = u := fun t ht u hu =>
  hid t (mem_flatten_of_mem hp ht) u (mem_flatten_of_mem hq hu)

theorem beq_iff_eq : (p == q) = true ↔ p = q := by
  constructor
  · exact eq_of_beq_list (eq_of_same hid hp hq)
  · rintro rfl
    exact BEq.rfl

theorem isPostfix_iff : isPostfix p q = true ↔ p <:+ q := by
  rw [isPostfix, suffix_iff_eq_drop, Bool.and_eq_true, decide_eq_true_iff]
  constructor
  · rintro ⟨_, he⟩
    refine (eq_of_beq_list (fun t ht u hu => ?_) he).symm
    exact eq_of_same hid hq hp t (mem_of_mem_drop ht) u hu
  · intro he
    have hl : p.length ≤ q.length := (suffix_iff_eq_drop.mpr he).length_le
    exact ⟨hl, by rw [← he]; exact BEq.rfl⟩

end Identified

theorem dropPostfixes_of_unrelated
    (h : ∀ q ∈ ps.drop i, isPostfix p q = false ∧ isPostfix q p = false) :
    dropPostfixes p ps i = (ps, true) := by
  fun_induction dropPostfixes p ps i
  case case1 ps i hi hp =>
    rw [drop_eq_getElem_cons hi, forall_mem_cons] at h
    simp [h.left.left] at hp
  case case2 ps i hi _ hp _ =>
    rw [drop_eq_getElem_cons hi, forall_mem_cons] at h
    simp [h.left.right] at hp
  case case3 ps i hi _ _ ih =>
    rw [drop_eq_getElem_cons hi, forall_mem_cons] at h
    exact ih h.right
  case case4 => rfl

-- One of the paths ends in the new one. If the new one ends in none of the others, it is not added.
theorem dropPostfixes_of_end (hq : q ∈ ps.drop i) (hpq : isPostfix p q)
    (h : ∀ r ∈ ps, isPostfix r p → isPostfix p r) : dropPostfixes p ps i = (ps, false) := by
  fun_induction dropPostfixes p ps i
  case case1 => rfl
  case case2 ps i hi hn hp _ => exact absurd (h _ (getElem_mem hi) hp) hn
  case case3 ps i hi hn _ ih =>
    rw [drop_eq_getElem_cons hi] at hq
    cases mem_cons.mp hq
    case inl he => exact absurd (he ▸ hpq) hn
    case inr hq => exact ih hq h
  case case4 ps i hi => simp [drop_eq_nil_of_le (Nat.le_of_not_lt hi)] at hq

-- The new path ends in one of the paths and has nothing to do with the others. The one is left out,
-- and it does not matter which one is passed over then.
theorem dropPostfixes_of_start (hq : q ∈ ps.drop i) (hqp : isPostfix q p)
    (hn : ∀ r ∈ ps, isPostfix p r = false) (hu : ∀ r ∈ ps, isPostfix r p → r = q)
    (hrest : ∀ r ∈ ps.eraseP (· == q), r ≠ q) :
    dropPostfixes p ps i = (ps.eraseP (· == q), true) := by
  fun_induction dropPostfixes p ps i
  case case1 ps i hi hp => simp [hn _ (getElem_mem hi)] at hp
  case case2 ps i hi _ hp _ =>
    have he := hu _ (getElem_mem hi) hp
    rw [he]
    apply dropPostfixes_of_unrelated
    intro r hr
    have hr := mem_of_mem_drop hr
    have hm := mem_of_mem_eraseP hr
    refine ⟨hn r hm, ?_⟩
    cases hrp : isPostfix r p
    case false => rfl
    case true  => exact absurd (hu r hm hrp) (hrest r hr)
  case case3 ps i hi _ hp ih =>
    rw [drop_eq_getElem_cons hi] at hq
    cases mem_cons.mp hq
    case inl he => exact absurd (he ▸ hqp) hp
    case inr hq => exact ih hq hn hu hrest
  case case4 ps i hi => simp [drop_eq_nil_of_le (Nat.le_of_not_lt hi)] at hq

-- What is kept of the paths that have been added.
structure Kept (done ps : List Path) : Prop where
  mem    : ∀ p ∈ ps, p ∈ done
  ends   : ∀ p ∈ done, ∃ q ∈ ps, p <:+ q
  apart  : ∀ p ∈ ps, ∀ q ∈ ps, p <:+ q → p = q
  nodup  : ps.Nodup
  sorted : ps.Pairwise fun p q => printedList q ≤ printedList p

theorem mem_eraseP_beq (h : ∀ r ∈ ps, (r == q) = true ↔ r = q) (hn : ps.Nodup) :
    r ∈ ps.eraseP (· == q) ↔ r ∈ ps ∧ r ≠ q := by
  induction ps
  case nil => simp
  case cons p ps ih =>
    have ⟨hp, hps⟩ := forall_mem_cons.mp h
    have ⟨hnp, hn⟩ := nodup_cons.mp hn
    by_cases hpq : p = q
    case pos =>
      have hr : r ∈ ps → r ≠ q := fun hr he => hnp (hpq ▸ he ▸ hr)
      rw [eraseP_cons, hp.mpr hpq, cond_true]
      grind
    case neg =>
      have hf : (p == q) = false := by simpa using mt hp.mp hpq
      rw [eraseP_cons, hf, cond_false, mem_cons, ih hps hn]
      grind

theorem insertWithoutPostfixes_cases (h : Kept done ps) (hid : Term.Identified (p :: ps).flatten) :
    (∃ q ∈ ps, p <:+ q) ∧ insertWithoutPostfixes p ps = ps ∨
    (∀ q ∈ ps, ¬p <:+ q) ∧ ∃ ps', ps'.Sublist ps ∧ (∀ r, r ∈ ps' ↔ r ∈ ps ∧ ¬r <:+ p) ∧
      insertWithoutPostfixes p ps = insert p ps' := by
  have left {q : Path} (hq : q ∈ ps) : isPostfix p q = true ↔ p <:+ q :=
    isPostfix_iff hid (by simp) (by simp [hq])
  have right {q : Path} (hq : q ∈ ps) : isPostfix q p = true ↔ q <:+ p :=
    isPostfix_iff hid (by simp [hq]) (by simp)
  rw [insertWithoutPostfixes]
  by_cases hpq : ∃ q ∈ ps, p <:+ q
  case pos =>
    refine .inl ⟨hpq, ?_⟩
    have ⟨q, hq, hpq⟩ := hpq
    rw [dropPostfixes_of_end (by simpa using hq) ((left hq).mpr hpq)]
    intro r hr hrp
    have hrp := (right hr).mp hrp
    rw [h.apart r hr q hq (hrp.trans hpq)]
    exact (left hq).mpr hpq
  case neg =>
    have hpq : ∀ q ∈ ps, ¬p <:+ q := fun q hq hp => hpq ⟨q, hq, hp⟩
    have hn : ∀ r ∈ ps, isPostfix p r = false := fun r hr => by
      simpa using mt (left hr).mp (hpq r hr)
    refine .inr ⟨hpq, ?_⟩
    by_cases hqp : ∃ q ∈ ps, q <:+ p
    case pos =>
      have ⟨q, hq, hqp⟩ := hqp
      -- Two ends of one path are an end of each other.
      have unique {r : Path} (hr : r ∈ ps) (hrp : r <:+ p) : r = q := by
        cases suffix_or_suffix_of_suffix hrp hqp
        case inl hs => exact h.apart r hr q hq hs
        case inr hs => exact (h.apart q hq r hr hs).symm
      have hmem {r : Path} : r ∈ ps.eraseP (· == q) ↔ r ∈ ps ∧ r ≠ q :=
        mem_eraseP_beq (fun r hr => beq_iff_eq hid (by simp [hr]) (by simp [hq])) h.nodup
      refine ⟨ps.eraseP (· == q), eraseP_sublist, fun r => ?_, ?_⟩
      · rw [hmem]
        refine and_congr_right fun hr => not_congr ⟨fun he => he ▸ hqp, unique hr⟩
      · rw [dropPostfixes_of_start (by simpa using hq) ((right hq).mpr hqp) hn]
        · exact fun r hr hrp => unique hr ((right hr).mp hrp)
        · exact fun r hr => (hmem.mp hr).right
    case neg =>
      have hqp : ∀ q ∈ ps, ¬q <:+ p := fun q hq hp => hqp ⟨q, hq, hp⟩
      refine ⟨ps, .refl ps, fun r => ?_, ?_⟩
      · rw [and_iff_left_of_imp (hqp r)]
      · rw [dropPostfixes_of_unrelated]
        intro r hr
        have hr := mem_of_mem_drop hr
        exact ⟨hn r hr, by simpa using mt (right hr).mp (hqp r hr)⟩

theorem Kept.step (h : Kept done ps) (hid : Term.Identified (p :: done).flatten) :
    Kept (done ++ [p]) (insertWithoutPostfixes p ps) := by
  have hid : Term.Identified (p :: ps).flatten := by
    apply hid.mono
    intro t ht
    have ⟨q, hq, ht⟩ := mem_flatten.mp ht
    have hq := (mem_cons.mp hq).imp_right (h.mem q)
    exact mem_flatten_of_mem (mem_cons.mpr hq) ht
  obtain ⟨⟨q, hq, hpq⟩, he⟩ | ⟨hno, ps', hsub, hmem, he⟩ := insertWithoutPostfixes_cases h hid
  · rw [he]
    refine ⟨fun r hr => by simp [h.mem r hr], fun r hr => ?_, h.apart, h.nodup, h.sorted⟩
    obtain hr | hr := mem_append.mp hr
    · exact h.ends r hr
    · exact ⟨q, hq, mem_singleton.mp hr ▸ hpq⟩
  · rw [he]
    refine ⟨fun r hr => ?_, fun r hr => ?_, fun r hr q hq hrq => ?_, ?_, ?_⟩
    · obtain rfl | hr := mem_insert.mp hr
      · simp
      · simp [h.mem r ((hmem r).mp hr).left]
    · obtain hr | hr := mem_append.mp hr
      · have ⟨q, hq, hrq⟩ := h.ends r hr
        by_cases hqp : q <:+ p
        case pos => exact ⟨p, mem_insert.mpr (.inl rfl), hrq.trans hqp⟩
        case neg => exact ⟨q, mem_insert.mpr (.inr ((hmem q).mpr ⟨hq, hqp⟩)), hrq⟩
      · obtain rfl := mem_singleton.mp hr
        exact ⟨r, mem_insert.mpr (.inl rfl), suffix_rfl⟩
    · obtain rfl | hr' := mem_insert.mp hr <;> obtain rfl | hq' := mem_insert.mp hq
      · rfl
      · exact absurd hrq (hno q ((hmem q).mp hq').left)
      · exact absurd hrq ((hmem r).mp hr').right
      · exact h.apart r ((hmem r).mp hr').left q ((hmem q).mp hq').left hrq
    · refine (insertSorted_perm _ p ps').nodup_iff.mpr (nodup_cons.mpr ⟨fun hp => ?_, ?_⟩)
      · exact ((hmem p).mp hp).right suffix_rfl
      · exact h.nodup.sublist hsub
    · exact insertSorted_sorted (h.sorted.sublist hsub)

-- The paths that are kept when all of the paths have been added, one after the other.
def gathered (ps : List Path) : List Path :=
  ps.foldl (fun kept p => insertWithoutPostfixes p kept) []

theorem kept_gathered (hid : Term.Identified ps.flatten) : Kept ps (gathered ps) := by
  induction ps using List.reverseRecOn
  case nil => constructor <;> simp [gathered]
  case append_singleton ps p ih =>
    have hps : Term.Identified ps.flatten := hid.mono (by simp)
    have hp : Term.Identified (p :: ps).flatten := hid.mono (by simp)
    rw [gathered, foldl_append]
    exact (ih hps).step hp

theorem Kept.mem_iff (h : Kept done ps) : p ∈ ps ↔ p ∈ done ∧ ∀ q ∈ done, p <:+ q → p = q := by
  constructor
  · intro hp
    refine ⟨h.mem p hp, fun q hq hpq => ?_⟩
    have ⟨r, hr, hqr⟩ := h.ends q hq
    have he := h.apart p hp r hr (hpq.trans hqr)
    exact hpq.eq_of_length_le (he ▸ hqr.length_le)
  · rintro ⟨hp, hmax⟩
    have ⟨q, hq, hpq⟩ := h.ends p hp
    exact hmax q (h.mem q hq) hpq ▸ hq

-- Adding paths keeps each of them once that is no end of another one, the greatest text first. The
-- order in which they were added does not matter if different paths have different texts.
theorem gathered_paths (hid : Term.Identified ps.flatten) :
    (∀ p, p ∈ gathered ps ↔ p ∈ ps ∧ ∀ q ∈ ps, p <:+ q → p = q) ∧
    (gathered ps).Nodup ∧
    (∀ p ∈ gathered ps, ∀ q ∈ gathered ps, p <:+ q → p = q) ∧
    (∀ p ∈ ps, ∃ q ∈ gathered ps, p <:+ q) ∧
    ((gathered ps).Pairwise fun p q => Term.printedList q ≤ Term.printedList p) ∧
    ((∀ p ∈ ps, ∀ q ∈ ps, Term.printedList p = Term.printedList q → p = q) →
      ∀ ps', ps'.Perm ps → gathered ps' = gathered ps) := by
  have h := kept_gathered hid
  refine ⟨fun _ => h.mem_iff, h.nodup, h.apart, h.ends, h.sorted, fun hinj ps' hperm => ?_⟩
  have h' : Kept ps' (gathered ps') := kept_gathered (hid.mono hperm.flatten.subset)
  have hmem : ∀ p, p ∈ gathered ps' ↔ p ∈ gathered ps := by
    intro p
    rw [h.mem_iff, h'.mem_iff, hperm.mem_iff]
    simp only [hperm.mem_iff]
  refine List.Perm.eq_of_pairwise ?_ h'.sorted h.sorted
    ((List.perm_ext_iff_of_nodup h'.nodup h.nodup).mpr hmem)
  intro p q hp hq hpq hqp
  exact hinj p (hperm.mem_iff.mp (h'.mem p hp)) q (h.mem q hq) (le_antisymm hqp hpq)

namespace Homes

def edge (n : Nat) (name : String) : Term :=
  .kind
    { serial := n, id := .fresh n, cls := .objectTypeRelation, name, sort := .objectTypeRelation }
    none none none none

def ways : List Path :=
  [[edge 1 "woont op"], [edge 2 "ligt in", edge 1 "woont op"], [edge 3 "werkt bij"],
    [edge 1 "woont op"]]

theorem ways_identified : Term.Identified ways.flatten := by
  simp only [ways, flatten_cons, flatten_nil, cons_append, nil_append,
    Term.Identified, forall_mem_cons]
  simp [edge, BEq.beq, same, serial?]

theorem printed_ways : ∀ p ∈ ways, ∀ q ∈ ways, printedList p = printedList q → p = q := by
  simp only [ways, forall_mem_cons]
  simp [printedList, edge, printed]

-- In whatever order they are met, the address is only kept as part of the way to the municipality.
theorem gathered_ways : Term.Identified ways.flatten ∧
    [edge 1 "woont op"] ∉ gathered ways ∧
    [edge 2 "ligt in", edge 1 "woont op"] ∈ gathered ways ∧
    ∀ ps', ps'.Perm ways → gathered ps' = gathered ways := by
  have ⟨hmem, _, _, _, _, hperm⟩ := gathered_paths ways_identified
  refine ⟨ways_identified, ?_, ?_, hperm printed_ways⟩
  · intro h
    have he := ((hmem _).mp h).right [edge 2 "ligt in", edge 1 "woont op"] (by simp [ways])
      ⟨[edge 2 "ligt in"], rfl⟩
    simp at he
  · refine (hmem _).mpr ⟨by simp [ways], fun q hq hs => ?_⟩
    have hl := hs.length_le
    simp only [ways, List.mem_cons, List.not_mem_nil, or_false] at hq
    obtain rfl | rfl | rfl | rfl := hq
    · simp at hl
    · rfl
    · simp at hl
    · simp at hl

end Homes

end Path
end Inquiry
