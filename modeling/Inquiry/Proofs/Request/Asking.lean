import Mathlib
import Inquiry.Proofs.Request.Choosing
import Inquiry.Request.Target

/-!
Relations that are asked about. A question word next to a relation asks for the end that it is the
word of, and the relation has an end that it is about where no word asks for one. The codomain is
overlooked if the domain has a question word of its own.
-/

namespace Inquiry

open Term KindClass Sequence Session Meaning

namespace Session

-- The end of a relation between `d` and `c` that the question word `w` asks for, or else the one that
-- the relation is about.
def askedEnd (s : Session) (rel d c : Term) (w : String) : Term :=
  if s.pronouns.get? d = some w then d
  else if s.pronouns.get? c = some w then c
  else (s.orientation.get? rel).getD d

-- A constant is taken for the object type of its set of values, if there is one.
def takenFor (s : Session) (t : Term) : Term :=
  if t.isConstant then (t.goal.toOption.bind s.override.get?).getD t else t

-- What a relation from `d` is taken for if no question word steers it.
def unasked (s : Session) (rel d : Term) : Term :=
  s.takenFor ((s.orientation.get? rel).getD d)

-- The codomain is asked for, but the domain has another question word.
structure Overlooks (s : Session) (rel d c : Term) (w : String) : Prop where
  other : ∃ w' ≠ w, s.pronouns.get? d = some w'
  asked : s.pronouns.get? c = some w
  lost  : s.unasked rel d ≠ c

-- Neither end is asked for, and the relation is said to be about a constant that is taken for
-- something else.
structure Replaces (s : Session) (rel d c : Term) (w : String) : Prop where
  source : s.pronouns.get? d ≠ some w
  target : s.pronouns.get? c ≠ some w
  taken  : s.unasked rel d ≠ (s.orientation.get? rel).getD d

variable {s : Session} {t : Term}

theorem takenFor_of_not_constant (h : t.isConstant = false) : s.takenFor t = t := by
  simp [takenFor, h]

theorem takenFor_of_constant {g : Term} (h : t.isConstant) (hg : t.goal = .ok g) :
    s.takenFor t = (s.override.get? g).getD t := by
  simp [takenFor, h, hg, Except.toOption]

end Session

namespace Request

open Keyword

-- The question word that is next to a place: the one before it, or else the one after it.
inductive Asked (r : Request) : Nat → String → Prop
  | before {k w} : r.keywords[k]? = some question → r.tokens[k]? = some w → Asked r (k + 1) w
  | after {k w} : (∀ j, k = j + 1 → r.keywords[j]? ≠ some question) →
    r.keywords[k + 1]? = some question → r.tokens[k + 1]? = some w → Asked r k w

-- The end that a question word steers a relation to: the codomain is not tried if the domain has a
-- word.
def steeredEnd (s : Session) (d c : Term) (w : String) : Option Term :=
  if s.pronouns.get? d = some w then some d
  else if s.pronouns.get? d = none ∧ s.pronouns.get? c = some w then some c
  else none

variable {r : Request} {s : Session} {k : Nat} {rel t d c : Term} {w kw : String}

theorem asks_natCast (h : r.keywords[k]? = some kw) : r.asks (k : Int) = .ok (kw == question) := by
  simp [asks, keyword, get_natCast h]

theorem token_natCast (h : r.tokens[k]? = some w) : r.token (k : Int) = .ok w :=
  get_natCast h

theorem Asked.steered (h : r.Asked k w) (s : Session) (t : Term) :
    r.steered s k t = asked s.pronouns t (.ok w) := by
  cases h
  case before k hk hw =>
    have hb : r.asks k = .ok true := by simpa using asks_natCast hk
    have hp : (k : Int) + 1 > 0 := by omega
    simp [Request.steered, hb, hp, token_natCast hw]
  case after hno hk hw =>
    have hl : k + 1 < r.keywords.length := (List.getElem?_eq_some_iff.mp hk).1
    have hli : (k : Int) + 1 < r.keywords.length := by exact_mod_cast hl
    have ha : r.asks ((k : Int) + 1) = .ok true := by simpa using asks_natCast hk
    have hw : r.token ((k : Int) + 1) = .ok w := by exact_mod_cast token_natCast hw
    simp only [Request.steered, hli, if_true, ha, ok_bind, hw]
    split
    case isFalse => rfl
    case isTrue hp =>
      obtain ⟨j, rfl⟩ := Nat.exists_eq_succ_of_ne_zero (by omega : k ≠ 0)
      have hj := List.getElem?_eq_getElem (Nat.lt_of_succ_lt (Nat.lt_of_succ_lt hl))
      have hn : (r.keywords[j] == question) = false := by simpa [hj] using hno j rfl
      have hb : r.asks (j : Int) = .ok false := hn ▸ asks_natCast hj
      simp [hb]

theorem asked_eq (hl : rel.Links d c) :
    asked s.pronouns rel (.ok w) = .ok ((steeredEnd s d c w).getD rel) := by
  have hd : rel.source = .ok d := by simp [source, hl.domain?_eq]
  have hc : rel.goal = .ok c := by simp [Term.goal, hl.codomain?_eq]
  simp only [asked, hd, hc, ok_bind, steeredEnd]
  cases hpd : s.pronouns.get? d
  case some w' => by_cases hw : w' = w <;> simp [hw, pure, Except.pure]
  case none =>
    cases hpc : s.pronouns.get? c
    case none => simp [pure, Except.pure]
    case some w' => by_cases hw : w' = w <;> simp [hw, pure, Except.pure]

theorem isRelation_of_type (h : t.role? = some .type) : t.isRelation = false := by
  cases t <;> simp_all [Term.role?, Term.isRelation, Term.cls?, KindClass.role]
  case kind head _ _ _ _ =>
    cases hc : head.cls <;> simp_all [KindClass.isType, KindClass.isRelation]

theorem isConstant_of_type (h : t.role? = some .type) : t.isConstant = false := by
  cases t <;> simp_all [role?, isConstant, hasClass, cls?]
  rintro hc
  simp [hc, KindClass.role, KindClass.isType] at h

theorem exists_goal_of_constant (h : t.isConstant) : ∃ g, t.goal = .ok g := by
  cases t <;> simp [isConstant, hasClass, cls?] at h
  simp [Term.goal, Term.codomain?, h, KindClass.isElement, KindClass.isType]

theorem steeredEnd_type {e : Term} (hl : rel.Links d c) (h : steeredEnd s d c w = some e) :
    e.role? = some .type := by
  rw [steeredEnd] at h
  split at h
  case isTrue => exact Option.some.inj h ▸ hl.source
  case isFalse =>
    split at h
    case isTrue  => exact Option.some.inj h ▸ hl.target
    case isFalse => cases h

theorem targetAt_asked (hm : r.meanings[k]? = some (.term rel)) (hr : rel.isRelation)
    (hl : rel.Links d c) (hw : r.Asked k w) (hk : r.keywords[k]? = some kw) (hn : kw ≠ numeric) :
    r.targetAt s false k = .ok (.term ((steeredEnd s d c w).getD (s.unasked rel d))) := by
  have hm : r.meaning k = .ok (.term rel) := get_natCast hm
  have hk : r.keyword k = .ok kw := get_natCast hk
  have hs : rel.source = .ok d := by simp [source, hl.domain?_eq]
  have ht : term <$> r.steered s k rel = .ok (.term ((steeredEnd s d c w).getD rel)) := by
    rw [hw.steered, asked_eq hl, Except.map_ok]
  simp only [targetAt, hm, hk, ok_bind, asTerm, hr, if_true, ht]
  cases he : steeredEnd s d c w
  case some e =>
    have hte := steeredEnd_type hl he
    simp [isRelation_of_type hte, isConstant_of_type hte, hn, pure, Except.pure]
  case none =>
    simp only [Option.getD_none, hr, if_true, unasked]
    cases s.orientation.get? rel
    case none =>
      have hc := isConstant_of_type hl.source
      simp [hs, hc, hn, takenFor_of_not_constant hc, pure, Except.pure]
    case some o =>
      cases hc : o.isConstant
      case false => simp [hc, hn, takenFor_of_not_constant hc, pure, Except.pure]
      case true =>
        obtain ⟨g, hg⟩ := exists_goal_of_constant hc
        rw [Option.getD_some, takenFor_of_constant hc hg]
        cases ho : s.override.get? g <;>
          simp [hc, hn, Meaning.goal, Meaning.asTerm, hg, ho, pure, Except.pure]

theorem steeredEnd_of_overlooks (h : s.Overlooks rel d c w) : steeredEnd s d c w = none := by
  obtain ⟨w', hne, hw'⟩ := h.other
  simp [steeredEnd, hw', hne]

theorem getD_steeredEnd_iff :
    (steeredEnd s d c w).getD (s.unasked rel d) = s.askedEnd rel d c w ↔
      ¬s.Overlooks rel d c w ∧ ¬s.Replaces rel d c w := by
  by_cases hd : s.pronouns.get? d = some w
  case pos =>
    have ho : ¬s.Overlooks rel d c w := fun h => by
      obtain ⟨w', hne, hw'⟩ := h.other
      exact hne (Option.some.inj (hw'.symm.trans hd))
    have hr : ¬s.Replaces rel d c w := fun h => h.source hd
    simp [steeredEnd, askedEnd, hd, ho, hr]
  case neg =>
    by_cases hc : s.pronouns.get? c = some w
    case pos =>
      have hr : ¬s.Replaces rel d c w := fun h => h.target hc
      have ha : s.askedEnd rel d c w = c := by simp [askedEnd, hd, hc]
      cases hp : s.pronouns.get? d
      case none =>
        have ho : ¬s.Overlooks rel d c w := fun h => by simpa [hp] using h.other
        simp [steeredEnd, ha, hp, hc, ho, hr]
      case some w' =>
        have hne : w' ≠ w := fun h => hd (h ▸ hp)
        have ho : s.Overlooks rel d c w ↔ s.unasked rel d ≠ c :=
          ⟨fun h => h.lost, fun h => ⟨⟨w', hne, hp⟩, hc, h⟩⟩
        simp [steeredEnd, ha, hp, hne, ho, hr]
    case neg =>
      have ho : ¬s.Overlooks rel d c w := fun h => hc h.asked
      have hr : s.Replaces rel d c w ↔ s.unasked rel d ≠ (s.orientation.get? rel).getD d :=
        ⟨fun h => h.taken, fun h => ⟨hd, hc, h⟩⟩
      simp [steeredEnd, askedEnd, hd, hc, ho, hr]

-- The relation becomes the end that is asked for, unless the codomain is asked for and the domain has
-- another question word: then it is taken as if nothing was asked. A relation that is said to be
-- about a constant apart, nothing else goes wrong.
theorem asked_relation_iff (hm : r.meanings[k]? = some (.term rel)) (hr : rel.isRelation)
    (hl : rel.Links d c) (hw : r.Asked k w) (hk : r.keywords[k]? = some kw) (hn : kw ≠ numeric) :
    ∃ t, r.convert s (some k) false = .ok (.term t) ∧
      (t = s.askedEnd rel d c w ↔ ¬s.Overlooks rel d c w ∧ ¬s.Replaces rel d c w) ∧
      (s.Overlooks rel d c w → t = s.unasked rel d) := by
  refine ⟨_, targetAt_asked hm hr hl hw hk hn, getD_steeredEnd_iff, fun ho => ?_⟩
  rw [steeredEnd_of_overlooks ho, Option.getD_none]

namespace Whereabouts

open Path.Travel (person address livesAt links_edge)

-- Persons are asked for by who, and addresses by where.
def session : Session where
  pronouns    := [(person, "wie"), (address, "waar")]
  orientation := [(livesAt, person)]

def request : Request where
  tokens   := ["waar", "woont", "Tjalling"]
  meanings := [.nothing, .term livesAt, .nothing]
  keywords := [question, relation, constant]

-- Where a person lives: the address is asked for, and the person becomes the target.
theorem address_overlooked : request.Asked 1 "waar" ∧
    session.Overlooks livesAt person address "waar" ∧
    session.askedEnd livesAt person address "waar" = address ∧
    request.convert session (some 1) false = .ok (.term person) := by
  have hw : request.Asked 1 "waar" := .before rfl rfl
  have hl : livesAt.Links person address := links_edge 12 "woont op" rfl rfl
  have hne : person ≠ address := by simp [person, address, Path.Travel.type]
  have ho : session.Overlooks livesAt person address "waar" :=
    ⟨⟨"wie", by decide, rfl⟩, rfl, hne⟩
  obtain ⟨t, ht, _, hover⟩ := asked_relation_iff (s := session) rfl rfl hl hw rfl (by decide)
  obtain rfl : t = person := hover ho
  exact ⟨hw, ho, rfl, ht⟩

end Whereabouts

end Request
end Inquiry
