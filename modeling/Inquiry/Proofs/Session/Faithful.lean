import Mathlib
import Inquiry.Proofs.Agree
import Inquiry.Proofs.Request.Building
import Inquiry.Proofs.Session.Keeping

/-!
A session that is faithful to its graph: the kind of an edge is what the edge tells, a variable that
takes all objects together goes by its title, and different kinds have different numbers. That stays
so, whatever succeeds.
-/

namespace Inquiry

namespace Term

structure KindOf (k : Term) (e : Edge) : Prop where
  name : k.printed = e.name
  cls  : k.cls? = KindClass.ofLabel? e.sort
  ends : ∃ d c, k.ElementKind d c

end Term

namespace Session

structure Faithful (s : Session) : Prop where
  consistent : s.Consistent
  edge       : ∀ e ∈ s.graph.edges, ∀ k, s.known[e.name]? = some k →
    k.printed = e.name ∧ k.cls? = KindClass.ofLabel? e.sort
  together   : ∀ p k, s.known[togetherTitle p]? = some k → k.printed = togetherTitle p
  serial     : ∀ (name : String) k, s.known[name]? = some k → ∃ n < s.next, k.serial? = some n
  apart      : ∀ (name name' : String) k k', s.known[name]? = some k → s.known[name']? = some k' →
    k.serial? = k'.serial? → k = k'

-- A faithful state that comes after another one.
structure Onward (s₀ s : Session) : Prop where
  faithful : s.Faithful
  later    : s₀.Later s
  next     : s₀.next ≤ s.next

variable {s s₀ : Session} {name : String} {k : Term}

theorem Faithful.onward (h : s.Faithful) : s.Onward s :=
  ⟨h, .refl s, le_rfl⟩

theorem Faithful.kindOf (h : s.Faithful) {e : Edge} (he : e ∈ s.graph.edges)
    (hk : s.known[e.name]? = some k) : k.KindOf e := by
  obtain ⟨d, c, _, _, hd⟩ := (h.consistent.known _ k hk).edge e he rfl
  obtain ⟨hn, hc⟩ := h.edge e he k hk
  exact ⟨hn, hc, d, c, hd⟩

theorem Faithful.numbered (h : s.Faithful) : s.numbered.Faithful where
  consistent := h.consistent.numbered
  edge       := h.edge
  together   := h.together
  apart      := h.apart
  serial name k hk := by
    obtain ⟨n, hn, hs⟩ := h.serial name k hk
    exact ⟨n, Nat.lt_add_right _ hn, hs⟩

theorem Faithful.serial_ne (h : s.Faithful) (hk : s.known[name]? = some k) :
    k.serial? ≠ some s.next := by
  obtain ⟨n, hlt, hs⟩ := h.serial name k hk
  simpa [hs] using hlt.ne

theorem Faithful.eq_of_beq (h : s.Faithful) {k' : Term} (hk : s.Met k) (hk' : s.Met k')
    (he : k == k') : k = k' := by
  obtain ⟨name, hk⟩ := hk
  obtain ⟨name', hk'⟩ := hk'
  obtain ⟨n, _, hn⟩ := h.serial name k hk
  obtain ⟨n', _, hn'⟩ := h.serial name' k' hk'
  refine h.apart name name' k k' hk hk' ?_
  simp_all [BEq.beq, Term.same]

theorem Faithful.know (h : s.Faithful) (hu : s.known[name]? = none)
    (hf : s.numbered.Fits name k) (hn : k.serial? = some s.next)
    (he : ∀ e ∈ s.graph.edges, e.name = name → k.printed = e.name ∧
      k.cls? = KindClass.ofLabel? e.sort)
    (ht : ∀ p, name = togetherTitle p → k.printed = name) : (s.numbered.know name k).Faithful where
  consistent := h.consistent.numbered.know hu hf
  edge e hm k' hk' := by
    by_cases hne : e.name = name
    case pos =>
      rw [hne, known_know] at hk'
      exact Option.some.inj hk' ▸ he e hm hne
    case neg =>
      rw [known_know_of_ne _ k hne] at hk'
      exact h.edge e hm k' hk'
  together p k' hk' := by
    by_cases hne : togetherTitle p = name
    case pos =>
      rw [hne, known_know] at hk'
      rw [hne, ← Option.some.inj hk']
      exact ht p hne.symm
    case neg =>
      rw [known_know_of_ne _ k hne] at hk'
      exact h.together p k' hk'
  serial name' k' hk' := by
    by_cases hne : name' = name
    case pos =>
      rw [hne, known_know] at hk'
      exact ⟨s.next, by simp [Session.know, Session.numbered, Op.serials], Option.some.inj hk' ▸ hn⟩
    case neg =>
      rw [known_know_of_ne _ k hne] at hk'
      exact h.numbered.serial name' k' hk'
  apart a b k₁ k₂ h₁ h₂ hs := by
    by_cases ha : a = name <;> by_cases hb : b = name
    case pos =>
      rw [ha, known_know] at h₁
      rw [hb, known_know] at h₂
      exact Option.some.inj (h₁.symm.trans h₂)
    case neg =>
      rw [ha, known_know] at h₁
      rw [known_know_of_ne _ k hb] at h₂
      exact absurd (hs.symm.trans (Option.some.inj h₁ ▸ hn)) (h.serial_ne h₂)
    case pos =>
      rw [hb, known_know] at h₂
      rw [known_know_of_ne _ k ha] at h₁
      exact absurd (hs.trans (Option.some.inj h₂ ▸ hn)) (h.serial_ne h₁)
    case neg =>
      rw [known_know_of_ne _ k ha] at h₁
      rw [known_know_of_ne _ k hb] at h₂
      exact h.apart a b k₁ k₂ h₁ h₂ hs

theorem Onward.kept (s₀ : Session) : Kept (Onward s₀) where
  sound hs    := Consistent.kept.sound hs.faithful.consistent
  numbered hs := ⟨hs.faithful.numbered, hs.later.trans (.numbered _), Nat.le_add_right_of_le hs.next⟩
  node hs hv hk hn h := by
    have hc := hs.faithful.consistent.numbered
    refine ⟨hs.faithful.know h (hc.fits_node hv hk) hn (fun e he hne => ?_) fun p hp => ?_,
      hs.later.trans ((Later.numbered _).trans (.know h)), Nat.le_add_right_of_le hs.next⟩
    · exact absurd hne.symm (hc.graph.sound.name_ne hv he)
    · exact absurd hp (hc.graph.reserved _ hv p).right
  edge hs he hd hc hk hm h := by
    have hcs := hs.faithful.consistent.numbered
    refine ⟨hs.faithful.know h (hcs.fits_edge he hd hc hk) hm.serial (fun e' he' hne => ?_)
      fun _ _ => hm.name,
      hs.later.trans ((Later.numbered _).trans (.know h)), Nat.le_add_right_of_le hs.next⟩
    obtain rfl := hcs.graph.sound.edge_eq he he' hne.symm
    exact ⟨hm.name, hm.cls⟩

end Session

namespace Path

variable {s : Session} {clues : List Term} {hint p q : Path} {ps : List Path}

theorem mem_of_bestFrom {n? : Option Nat} (h : bestFrom s clues hint ps n? p = .ok q) :
    q = p ∨ q ∈ ps := by
  induction ps generalizing n? p
  case nil => exact .inl (Except.ok.inj h).symm
  case cons a ps ih =>
    have chosen {n? : Option Nat} (h : bestFrom s clues hint ps n? a = .ok q) : q ∈ a :: ps := by
      simpa using ih h
    have other {n? : Option Nat} (h : bestFrom s clues hint ps n? p = .ok q) :
        q = p ∨ q ∈ a :: ps :=
      (ih h).imp_right (List.mem_cons_of_mem a)
    rw [bestFrom] at h
    split at h
    case isTrue => exact .inr (by simpa using Except.ok.inj h ▸ .inl rfl)
    case isFalse =>
      obtain ⟨k, _, h⟩ := bind_eq_ok.mp h
      split at h
      case h_1 =>
        split at h
        case isTrue => exact .inr (chosen h)
        case isFalse =>
          split at h
          case isTrue  => exact .inr (chosen h)
          case isFalse => exact other h
      case h_2 => exact .inr (chosen h)

theorem mem_of_best (h : best s ps clues hint = .ok q) : q ∈ ps ∨ q = [] ∧ ps = [] := by
  cases ps
  case nil => exact .inr ⟨(Except.ok.inj h).symm, rfl⟩
  case cons a ps =>
    rw [best, bestFrom] at h
    split at h
    case isTrue => exact .inl (by simpa using Except.ok.inj h ▸ .inl rfl)
    case isFalse =>
      obtain ⟨k, _, h⟩ := bind_eq_ok.mp h
      exact .inl (by simpa using mem_of_bestFrom h)

end Path

namespace Session.Onward

open SessionM

variable {s₀ : Session} {p : Term}

theorem know {s s' : Session} {title : String} {c v : Term} (hs : s₀.Onward s)
    (hn : NewVariable s s' title p c v) (hf : s.Fits title v) : s₀.Onward s' := by
  refine ⟨?_, hs.later.trans hn.later, ?_⟩
  · refine hn.after ▸ hs.faithful.know hn.unknown (hf.later (.numbered s)) hn.serial ?_ ?_
    · exact fun e he hne => absurd hne (by simpa using Array.find?_eq_none.mp hn.noEdge e he)
    · exact fun _ _ => hn.name
  · exact hn.after ▸ Nat.le_add_right_of_le hs.next

theorem keeps_counting (hp : s₀.HasObjectType p) :
    Keeps (Onward s₀) (counting p) fun v => ∃ d c, v.ElementKind d c := by
  refine .of_gives fun s hs => ?_
  have hc := hs.faithful.consistent
  have hp := hp.later hs.later
  obtain ⟨v, s', hv, h⟩ := counting_gives (Onward.kept s₀) hs hp hc.number fun hs =>
    ne_nothing_of_counting hs.faithful.consistent
  cases h
  case inl hr =>
    obtain ⟨_, _, he⟩ := (hr.kept.faithful.consistent.known _ _ hr.known).counting _ rfl
    exact ⟨v, s', hv, hr.kept, _, _, he⟩
  case inr hn =>
    exact ⟨v, s', hv, hs.know hn (hc.fits_counting hn.noEdge hp.known hn.ends), _, _, hn.ends⟩

theorem keeps_together (hp : s₀.HasObjectType p) : Keeps (Onward s₀) (together p) fun w =>
    w.printed = togetherTitle p.printed ∧ ∃ d c, w.ElementKind d c := by
  refine .of_gives fun s hs => ?_
  have hc := hs.faithful.consistent
  have hp := hp.later hs.later
  obtain ⟨w, s', hw, h⟩ := together_gives (Onward.kept s₀) hs hp fun hs =>
    ne_nothing_of_together hs.faithful.consistent
  cases h
  case inl hr =>
    obtain ⟨_, _, he⟩ := (hr.kept.faithful.consistent.known _ _ hr.known).together _ rfl
    exact ⟨w, s', hw, hr.kept, hr.kept.faithful.together _ _ hr.known, _, _, he⟩
  case inr h =>
    obtain ⟨v, s₁, hn, rfl, hwe, hwn⟩ := h
    have hs₁ := hs.know hn (hc.fits_together hn.noEdge hp.known hn.ends)
    exact ⟨w, _, hw, (Onward.kept s₀).numbered hs₁, hwn, _, _, hwe⟩

theorem keeps_bestPath {o t : Term} {clues : List Term} {hint : Path} (ho : o ≠ .nothing)
    (ht : t ≠ .nothing) : Keeps (Onward s₀) (bestPath o t clues hint) fun p =>
      p = [] ∧ s₀.graph.trails o.printed t.printed = [] ∨
        ∃ es ∈ s₀.graph.trails o.printed t.printed,
          List.Forall₂ (fun e k => k.KindOf e) es p.reverse := by
  have hp : Keeps (Onward s₀) (paths o t) (List.Forall₂ (fun es p =>
      List.Forall₂ (fun e k => Term.KindOf k e) es p.reverse)
        (s₀.graph.trails o.printed t.printed)) := by
    have he : paths o t = pathsNamed o.printed t.printed := by
      cases o <;> cases t <;> simp_all [paths]
    intro s hs
    have hr : Recalling s₀.graph (Onward s₀) Later :=
      recalling_of_kept (Onward.kept s₀) fun hs => hs.later.graph
    obtain ⟨hs', _, hps⟩ := hr.pathsNamed_trails o.printed t.printed hs
    rw [he]
    refine ⟨hs', fun ps h => (forall₂_mem (hps ps h)).imp ?_⟩
    rintro es p ⟨hes, _, hk⟩
    obtain ⟨_, _, htr⟩ := Graph.trail_of_mem_trails hes
    refine (forall₂_mem hk).imp ?_
    rintro e k ⟨hm, _, hk⟩
    exact hs'.faithful.kindOf (hs'.later.graph ▸ htr.mem hm) hk
  refine hp.bind fun ps hps => keeps_get.bind fun s _ => keeps_outcome fun q hq => ?_
  obtain hq | ⟨rfl, rfl⟩ := Path.mem_of_best hq
  · obtain ⟨es, hes, hk⟩ := exists_of_mem_right hps hq
    exact .inr ⟨es, hes, hk⟩
  · exact .inl ⟨rfl, List.forall₂_nil_right_iff.mp hps⟩

end Session.Onward
end Inquiry
