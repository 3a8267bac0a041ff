import Mathlib
import Inquiry.Proofs.Request.Steering
import Inquiry.Proofs.Session.Origins
import Inquiry.Proofs.Term.Pairing

/-!
The kinds that are known in a session are told apart by their numbers. On a graph without a name
that is used twice, recalling kinds never fails, and so paths and origins can be told in every state.
-/

namespace Inquiry

open Term KindClass

namespace Session

variable {s : Session} {name : String} {k : Term}

-- No two kinds that are known have the same number, and the next number is none of theirs.
structure Numbering (s : Session) : Prop where
  below : ∀ (name : String) (k : Term) n, s.known[name]? = some k → k.serial? = some n → n < s.next
  apart : ∀ (name name' : String) (k k' : Term) n, s.known[name]? = some k →
    s.known[name']? = some k' → k.serial? = some n → k'.serial? = some n → k = k'

theorem Numbering.of_eq {s' : Session} (h : s.Numbering) (hk : s'.known = s.known)
    (hn : s.next ≤ s'.next) : s'.Numbering where
  below name k n hk' hs := (h.below name k n (hk ▸ hk') hs).trans_le hn
  apart := hk ▸ h.apart

theorem Numbering.know (h : s.Numbering)
    (hk : ∀ n, k.serial? = some n → n < s.next ∧ ∀ (name : String) (k' : Term),
      s.known[name]? = some k' → k'.serial? ≠ some n) : (s.know name k).Numbering where
  below name' k' n hk' hs := by
    by_cases hne : name' = name
    case pos =>
      rw [hne, known_know] at hk'
      exact (hk n (Option.some.inj hk' ▸ hs)).left
    case neg =>
      rw [known_know_of_ne _ _ hne] at hk'
      exact h.below name' k' n hk' hs
  apart a b k₁ k₂ n h₁ h₂ hs₁ hs₂ := by
    by_cases ha : a = name <;> by_cases hb : b = name
    case pos =>
      rw [ha, known_know] at h₁
      rw [hb, known_know] at h₂
      exact Option.some.inj (h₁.symm.trans h₂)
    case neg =>
      rw [ha, known_know] at h₁
      rw [known_know_of_ne _ _ hb] at h₂
      exact absurd hs₂ ((hk n (Option.some.inj h₁ ▸ hs₁)).right b k₂ h₂)
    case pos =>
      rw [hb, known_know] at h₂
      rw [known_know_of_ne _ _ ha] at h₁
      exact absurd hs₁ ((hk n (Option.some.inj h₂ ▸ hs₂)).right a k₁ h₁)
    case neg =>
      rw [known_know_of_ne _ _ ha] at h₁
      rw [known_know_of_ne _ _ hb] at h₂
      exact h.apart a b k₁ k₂ n h₁ h₂ hs₁ hs₂

theorem Numbering.steers : Steers Numbering where
  numbered s h := h.of_eq rfl (Nat.le_add_right ..)
  missing s name h := h.know fun n hn => nomatch hn
  new s name k h hk := by
    have hlt : s.next < s.numbered.next := by simp [Session.numbered, Op.serials]
    have hs : s.numbered.Numbering := h.of_eq rfl hlt.le
    refine hs.know fun n hn => ?_
    obtain rfl : s.next = n := Option.some.inj (hk.symm.trans hn)
    exact ⟨hlt, fun name' k' hk' hs => (h.below name' k' s.next hk' hs).ne rfl⟩

theorem Numbering.eq_of_beq {k' : Term} (h : s.Numbering) (hk : s.Met k) (hk' : s.Met k')
    (ht : k.isKind) (he : k == k') : k = k' := by
  obtain ⟨name, hk⟩ := hk
  obtain ⟨name', hk'⟩ := hk'
  have ⟨n, hn⟩ : ∃ n, k.serial? = some n := by
    cases k <;> simp [isKind, serial?] at ht ⊢
  have hn' : k'.serial? = some n := by
    change k.same k' = true at he
    cases hs : k'.serial? <;> simp_all [same]
  exact h.apart name name' k k' n hk hk' hn hn'

end Session

namespace Term

variable {n : Nat} {spec : KindSpec}

theorem exists_makeElement (hc : spec.cls.isElement) (hs : spec.constr = none)
    (hn : spec.sortNumber = none) (hd : ∀ d ∈ spec.domain, d.TypeKind)
    (hcd : ∀ c ∈ spec.codomain, c.TypeKind) : ∃ k, makeElement n spec = .ok k := by
  have hr : spec.cls.sort.role? = some .element := by
    rw [role?_sort, KindClass.role, if_neg]
    simpa [isElement] using hc
  have bare : checkParts "element" (some spec.cls.sort) none = .ok () := by
    simp [checkParts, hr]
  have role {e : Option Term} (he : ∀ d ∈ e, d.TypeKind) :
      optionHasRole .element e = .ok false := by
    cases e
    case none   => rfl
    case some d => exact hasRole_eq (he d rfl).isType.role
  have absent : optionHasRole .type none = .ok false := rfl
  rw [makeElement]
  simp only [hs, role hd, role hcd, absent, KindSpec.sort, hn]
  cases hdo : spec.domain
  case none => simp [bare]
  case some d =>
    cases hco : spec.codomain
    case none => simp [bare]
    case some c =>
      have hf := Op.form_functionalType (n := n + 1) (hd d hdo).isType (hcd c hco).isType
      simp [hf, checkParts_element hc]

theorem exists_make_element (hc : spec.cls.isElement) (hs : spec.constr = none)
    (hn : spec.sortNumber = none) (hd : ∀ d ∈ spec.domain, d.TypeKind)
    (hcd : ∀ c ∈ spec.codomain, c.TypeKind) : ∃ k, make n spec = .ok k := by
  rw [make]
  split
  case h_1 h => simp [h, isElement, isType] at hc
  case h_2   => exact exists_makeElement hc hs hn (by simpa using typeKind_one) hcd
  case h_3 =>
    rw [if_neg (by simpa [isElement] using hc)]
    exact exists_makeElement hc hs hn hd hcd

end Term

namespace SessionM

open Session

variable {m : Model} {g : Graph} {s₀ s : Session}

-- At first only the type with a single member, which has no number of its own, and the quantity of
-- numbers are known.
theorem numbering_of_first (hn : Term.make 1 { cls := .quantity, name := "getal" } = .ok s.number)
    (hk : s.known = (({} : Session).know "1" .one |>.know "getal" s.number).known)
    (hlt : 1 < s.next) : s.Numbering := by
  let none : Session := { next := s.next }
  have hnone : none.Numbering :=
    ⟨fun name k n h => by simp [none] at h, fun name name' k k' n h => by simp [none] at h⟩
  have hone : (none.know "1" .one).Numbering := by
    apply hnone.know
    intro n hn
    obtain rfl : 0 = n := Option.some.inj hn
    exact ⟨Nat.zero_lt_of_lt hlt, fun name k h => by simp [none] at h⟩
  refine Numbering.of_eq (s := (none.know "1" .one).know "getal" s.number) ?_ hk le_rfl
  apply hone.know
  intro n hn'
  obtain rfl : 1 = n := Option.some.inj ((make_eq_ok hn).right.symm.trans hn')
  refine ⟨hlt, fun name k hk => ?_⟩
  by_cases hne : name = "1"
  case pos =>
    rw [hne, known_know] at hk
    simp [← Option.some.inj hk, Term.one, Term.serial?]
  case neg =>
    rw [known_know_of_ne _ _ hne] at hk
    simp [none] at hk

theorem keeps_operand_numbering (o : Operand) : Keeps Numbering (operand o) fun _ => True := by
  refine (Numbering.steers.keeps_kindOfSort _ _).bind fun k _ => ?_
  split
  case h_1 =>
    refine (Numbering.steers.keeps_kindNamed _).bind fun _ _ => ?_
    refine (Numbering.steers.keeps_kindNamed _).bind fun _ _ => ?_
    exact Numbering.steers.keeps_new _ _ fun _ => keeps_pure trivial
  case h_2 => exact keeps_pure trivial

theorem start_numbering (h : Session.start m = .ok s) : s.Numbering := by
  have hs := Numbering.steers
  have hd : Keeps Numbering (m.designs.mapM readDesign) fun _ => True :=
    keeps_mapM fun d _ => keeps_readDesign hs.numbered fun o _ => keeps_operand_numbering o
  have ⟨u, h⟩ := start_gives h
  have ⟨s₁, s₂, ks, hs₁, hks, he⟩ := start_reads h hs.keeps_kindOfSort hd
    (fun _ _ h _ _ hk hn => h.of_eq hk hn.ge) fun _ hn _ hk hlt => numbering_of_first hn hk hlt
  have hs₂ := (keeps_mapM fun v _ => hs.keeps_restore (.ofNode v)).gives hs₁ hks
  exact he ▸ hs₂.of_eq rfl le_rfl

theorem Reached.keeps {I : Session → Prop} (hI : Steers I) (hs : I s₀) (h : Reached s₀ s) : I s := by
  induction h
  case start                  => exact hs
  case kindNamed name _ ih    => exact (hI.keeps_kindNamed name _ ih).left
  case kindOfSort name k _ ih => exact (hI.keeps_kindOfSort name k _ ih).left
  case pathsNamed a b _ ih    => exact (hI.keeps_pathsNamed a b _ ih).left
  case paths t u _ ih         => exact (hI.keeps_paths t u _ ih).left
  case origin t u _ ih        => exact (hI.keeps_origin t u _ ih).left

theorem Reached.numbering (hs : s₀.Numbering) (h : Reached s₀ s) : s.Numbering :=
  h.keeps Numbering.steers hs

theorem objectTypes_identified (hm : m.Distinct) (h₀ : Session.start m = .ok s₀)
    (h : Reached s₀ s) : Term.Identified s.objectTypes := by
  have hs₀ := start_named hm h₀
  have hs := h.recalls hm hs₀.left
  have hn := h.numbering (start_numbering h₀)
  have met {t : Term} (ht : t ∈ s.objectTypes) : s.Met t := by
    rw [hs.right.objectTypes] at ht
    have ⟨name, hk⟩ := hs₀.right t ht
    exact ⟨name, hs.right.known name t hk⟩
  intro t ht u hu he
  have ⟨_, _, hk, _⟩ := exists_of_mem_right (forall₂_objectTypes hm h₀ h) ht
  exact hn.eq_of_beq (met ht) (met hu) hk he

section Recalling

variable (hg : g.Distinct)
include hg

theorem typeKind_of_node {v : Node} {k : Term} (hv : v ∈ g.nodes) (hs : Named g g.Tells s)
    (hk : s.known[v.name]? = some k) (hn : k ≠ .nothing) : k.TypeKind := by
  cases hs.known _ k hk hn
  case kind htells _ _ =>
    refine ⟨_, _, _, _, _, rfl, ?_⟩
    obtain ⟨_, hc⟩ | ⟨w, hw, _, hc⟩ | ⟨_, hne⟩ := htells
    · rw [hc]
      rfl
    · exact hg.types w hw _ hc
    · exact absurd rfl (hne v hv)

-- The ends of an edge are types or not known at all, so that it can be made a kind of.
theorem restore_edge_gives {e : Edge} (he : e ∈ g.edges) (hs : Named g g.Tells s) :
    ∃ k s', (restore (.ofEdge e)).Gives s k s' := by
  cases h : s.known[e.name]?
  case some k => exact ⟨k, s, restore_of_known h⟩
  case none =>
    by_cases hb : ∃ c, Graph.NamesElement e.sort c
    case neg => exact ⟨.nothing, restore_unbuilt hg hg.gives hs he h hb⟩
    case pos =>
      obtain ⟨c, hc⟩ := hb
      obtain ⟨v, hv, hvn, hvs⟩ := hg.source e he
      obtain ⟨w, hw, hwn, hws⟩ := hg.target e he
      obtain ⟨d, s₁, hd, hs₁, _, hkd, _⟩ := restore_named hg hg.gives none hv hs
      obtain ⟨d', s₂, hd', hs₂, _, hkd', _⟩ := restore_named hg hg.gives none hw hs₁
      have hmade : ∃ k, Term.make s₂.next (edgeSpec e c d d') = .ok k := by
        apply exists_make_element hc.right.left rfl rfl
        · intro k hk
          obtain ⟨hdk, hn⟩ := present_eq_some.mp hk
          exact typeKind_of_node hg hv hs₁ (hdk ▸ hkd) hn
        · intro k hk
          obtain ⟨hdk, hn⟩ := present_eq_some.mp hk
          exact typeKind_of_node hg hw hs₂ (hdk ▸ hkd') hn
      obtain ⟨k, hk⟩ := hmade
      rw [hvn, hvs] at hd
      rw [hwn, hws] at hd'
      exact ⟨k, _, restore_made_edge h hc hd hd' hk⟩

theorem tellsPaths_named : TellsPaths (Named g g.Tells) := by
  refine tellsPaths_of_edges (fun hs => hs.graph) fun e he s hs => ?_
  have ⟨k, s', hk⟩ := restore_edge_gives hg he hs
  exact ⟨k, s', hk, ((passes_restore_edge hg hg.gives he hs).gives hk).left⟩

end Recalling

end SessionM
end Inquiry
