import Mathlib
import Inquiry.Proofs.Request.Building
import Inquiry.Proofs.Session.Paths
import Inquiry.Proofs.Term.Pairing

/-!
Going on from a path to the variables that stand for the type where it ends. The longer path can be
composed and does not go on any further. Where no variable is listed for the type, though, the path
is lost.
-/

namespace Inquiry

open List Term

-- The variables that are listed for a type are variables of it.
def Session.OwnDefaults (s : Session) : Prop :=
  ∀ e ∈ s.defaults, ∀ v ∈ e.2, v.isVariable ∧ ∃ d c, v.Goes d c ∧ d.equals e.1

-- A path from `d` to `c` that ends in a tuple, or in a kind that tells its end.
structure Path.Between (p : Path) (d c : Term) : Prop where
  leads : Leads p d c
  ends  : ∀ t, p.head? = some t → (∃ n op ts ty, t = .app n op ts ty) ∨ t.goal = .ok c

-- The type where the longer path ends, if the path ends in `c`.
def Session.EndsIn (s : Session) (p : Path) (c c' : Term) : Prop :=
  match s.variablesFor p with
  | none    => c' = c
  | some vs => ∃ cs, vs.mapM cod = .ok cs ∧ IsTupleType .one cs c'

theorem Term.Spread.mapM_cod {ts cs : List Term} {d : Term} (h : Spread ts d cs) :
    ts.mapM cod = .ok cs :=
  mapM_cod_eq_ok (Forall₂.imp (fun _ _ ⟨_, h, _⟩ => ⟨_, h⟩) h)

namespace SessionM

variable {s : Session} {d c : Term} {ts : List Term}

theorem gives_pair {cs : List Term} (h : Spread ts d cs) (hn : ts ≠ []) (s : Session) :
    ∃ t s', (pair ts).Gives s t s' ∧ IsTuple ts t ∧
      ∃ d' c, t.Goes d' c ∧ d'.equals d ∧ IsTupleType .one cs c := by
  match ts, h with
  | [], _ => exact absurd rfl hn
  | [t], .cons ht .nil =>
    have ⟨d', ht, hd⟩ := ht
    exact ⟨t, s, gives_done, rfl, d', _, ht, hd, rfl⟩
  | t :: u :: ts, h =>
    have ⟨d', m, hd, ty, ht, hg⟩ := builds_product (n := s.next) h (by simp)
    refine ⟨_, s.numbered, gives_app_iff.mpr ⟨ht, rfl⟩, ⟨_, ty, rfl⟩, d', _, hg, hd, ?_⟩
    match cs, h with
    | _ :: _ :: _, _ => exact ⟨m, rfl⟩

theorem compose_nothing {t : Term} {p : Path} {s' : Session} (hp : p ≠ []) :
    ¬(compose (.nothing :: p)).Gives s t s' := by
  obtain ⟨u, us, rfl⟩ := exists_cons_of_ne_nil hp
  intro h
  have ⟨h, _⟩ := gives_app_iff.mp h
  have he : apply s.next .composition (.nothing :: u :: us) = .error .absent := rfl
  cases he.symm.trans h

end SessionM

namespace Path

open Session SessionM

variable {s s' : Session} {p : Path} {t u d c : Term} {ts vs : List Term}

theorem isKind_of_goal (h : t.goal = .ok c) : t.isKind := by
  cases t <;> simp [goal, codomain?, Functor.map, Except.map, isKind] at h ⊢

theorem gives_extend_of_ended (h : t.isVariable ∨ ∃ n op us ty, t = .app n op us ty) (s : Session) :
    (extend (t :: ts)).Gives s (t :: ts) s := by
  rw [extend.eq_def]
  obtain hv | ⟨n, op, us, ty, rfl⟩ := h
  case inr => exact gives_done
  cases t <;> simp_all

theorem gives_extend_of_none (hc : t.goal = .ok c) (h : s.variablesFor (t :: ts) = none) :
    (extend (t :: ts)).Gives s (t :: ts) s := by
  cases hv : t.isVariable
  case true => exact gives_extend_of_ended (.inl hv) s
  case false =>
    have hk := isKind_of_goal hc
    simp only [variablesFor, hv, hc, Bool.false_eq_true, if_false] at h
    cases t <;> simp only [isKind, Bool.false_eq_true] at hk
    simp only [extend, hv, hc, Bool.false_eq_true, if_false]
    refine gives_get_bind.mpr (Gives.ofExcept_bind rfl ?_)
    simp [h]

theorem gives_extend_of_some (h : s.variablesFor (t :: ts) = some vs)
    (hu : (pair vs).Gives s u s') : (extend (t :: ts)).Gives s (u :: t :: ts) s' := by
  cases hv : t.isVariable
  case true => simp [variablesFor, hv] at h
  case false =>
    cases hc : t.goal <;> simp only [variablesFor, hv, hc, Bool.false_eq_true, if_false,
      reduceCtorEq] at h
    have hk := isKind_of_goal hc
    cases t <;> simp only [isKind, Bool.false_eq_true] at hk
    simp only [extend, hv, hc, Bool.false_eq_true, if_false]
    refine gives_get_bind.mpr (Gives.ofExcept_bind rfl ?_)
    simp only [h]
    exact hu.bind gives_done

theorem not_gives_extend_nothing {q : Path} : ¬(extend (.nothing :: p)).Gives s q s' := by
  intro h
  simp only [extend, isVariable, hasClass, cls?] at h
  obtain ⟨_, _, _, h⟩ := gives_bind.mp h
  obtain ⟨_, _, h, _⟩ := gives_bind.mp h
  cases (gives_ofExcept.mp h).left

theorem Between.listed (hp : Between (t :: ts) d c) (hs : s.OwnDefaults)
    (hid : Identified (c :: s.defaults.map (·.1))) (hv : s.variablesFor (t :: ts) = some vs) :
    ∀ v ∈ vs, v.isVariable ∧ ∃ d' c', v.Goes d' c' ∧ d'.equals c := by
  obtain ⟨n, op, us, ty, rfl⟩ | hg := hp.ends t rfl
  case inl => cases hv
  have ht : t.isVariable = false := by
    by_contra ht
    simp [variablesFor, ht] at hv
  have hd : s.defaults.get? c = some vs := by simpa [variablesFor, ht, hg] using hv
  obtain ⟨e, he, hvs⟩ := Option.map_eq_some_iff.mp hd
  have hm := mem_of_find?_eq_some he
  have hsame := find?_some he
  have hkey : e.1 = c :=
    hid e.1 (mem_cons_of_mem _ (mem_map_of_mem hm)) c (by simp) hsame
  exact hvs ▸ hkey ▸ hs e hm

theorem Between.exists_extended (hp : Between (t :: ts) d c) (hs : s.OwnDefaults)
    (hid : Identified (c :: s.defaults.map (·.1))) (hv : s.variablesFor (t :: ts) = some vs)
    (hn : vs ≠ []) :
    ∃ u s' c', (extend (t :: ts)).Gives s (u :: t :: ts) s' ∧ IsTuple vs u ∧
      s.EndsIn (t :: ts) c c' ∧ Leads (u :: t :: ts) d c' := by
  have ⟨cs, hcs⟩ := exists_spread fun v hm => (hp.listed hs hid hv v hm).right
  have ⟨u, s', hu, ht, d', c', hg, he, hc'⟩ := gives_pair hcs hn s
  refine ⟨u, s', c', gives_extend_of_some hv hu, ht, ?_, .cons hg hp.leads he⟩
  rw [EndsIn, hv]
  exact ⟨cs, hcs.mapM_cod, hc'⟩

theorem ended_of_isTuple (h : IsTuple vs u) (hv : ∀ v ∈ vs, v.isVariable) :
    u.isVariable ∨ ∃ n op us ty, u = .app n op us ty := by
  rw [IsTuple.eq_def] at h
  split at h
  case h_1 => exact .inl (h ▸ hv _ (by simp))
  case h_2 =>
    obtain ⟨n, ty, rfl⟩ := h
    exact .inr ⟨n, _, _, _, rfl⟩

-- A path can be composed after it has gone on, from where it began to the types of the variables,
-- and does not go on a second time, exactly if variables are listed where it ends in a type of the
-- table. Else it neither can be composed nor go on again.
theorem extend_composes_iff (hs : s.OwnDefaults) (hp : p.Between d c)
    (hid : Identified (c :: s.defaults.map (·.1))) :
    ((∃ p' s', p.extend.Gives s p' s' ∧ s.Extends p p' ∧
        (∃ c' t s'', s.EndsIn p c c' ∧ (compose p').Gives s' t s'' ∧ t.Goes d c') ∧
        p'.extend.Gives s' p' s') ↔
      s.variablesFor p ≠ some []) ∧
    (s.variablesFor p = some [] → p.extend.Gives s (.nothing :: p) s ∧
      (∀ t s', ¬(compose (.nothing :: p)).Gives s t s') ∧
      ∀ q s', ¬(extend (.nothing :: p)).Gives s q s') := by
  obtain ⟨t, ts, rfl⟩ := List.exists_cons_of_ne_nil hp.leads.ne_nil
  have lost (h : s.variablesFor (t :: ts) = some []) :
      (extend (t :: ts)).Gives s (.nothing :: t :: ts) s :=
    gives_extend_of_some h gives_done
  refine ⟨⟨?_, fun hv => ?_⟩, fun hv => ⟨lost hv, ?_, ?_⟩⟩
  · rintro ⟨p', s', hp', _, ⟨_, _, _, _, hc, _⟩, _⟩ hv
    obtain ⟨rfl, rfl⟩ := hp'.unique (lost hv)
    exact compose_nothing (by simp) hc
  · cases hvs : s.variablesFor (t :: ts)
    case none =>
      have same : (extend (t :: ts)).Gives s (t :: ts) s := by
        obtain ⟨n, op, us, ty, rfl⟩ | hg := hp.ends t rfl
        · exact gives_extend_of_ended (.inr ⟨n, op, us, ty, rfl⟩) s
        · exact gives_extend_of_none hg hvs
      obtain ⟨u, s', hu, hg⟩ := compose_leads hp.leads s
      have hc : s.EndsIn (t :: ts) c c := by simp [EndsIn, hvs]
      exact ⟨t :: ts, s, same, by simp [Extends, hvs], ⟨c, u, s', hc, hu, hg⟩, same⟩
    case some vs =>
      have hn : vs ≠ [] := fun hn => hv (hn ▸ hvs)
      have own : ∀ v ∈ vs, v.isVariable := fun v hm => (hp.listed hs hid hvs v hm).left
      obtain ⟨u, s', c', hu, htup, hc', hl⟩ := hp.exists_extended hs hid hvs hn
      obtain ⟨w, s'', hw, hg⟩ := compose_leads hl s'
      refine ⟨u :: t :: ts, s', hu, ?_, ⟨c', w, s'', hc', hw, hg⟩, ?_⟩
      · simpa [Extends, hvs] using htup
      · exact gives_extend_of_ended (ended_of_isTuple htup own) s'
  · exact fun _ _ => compose_nothing (by simp)
  · exact fun _ _ => not_gives_extend_nothing

namespace Dwellings

def type (n : Nat) (cls : KindClass) (name : String) : Term :=
  .kind { serial := n, id := .fresh n, cls, name, sort := cls.sort } none none none none

def element (n : Nat) (cls : KindClass) (name : String) (d c : Term) : Term :=
  .kind { serial := n, id := .fresh n, cls, name, sort := cls.sort }
    (some (.app (n + 1) .functionalType [d, c] none)) (some d) (some c) none

def person  := type 1 .objectType "persoon"
def address := type 2 .objectType "adres"
def crime   := type 3 .objectType "delict"
def streets := type 4 .phenomenon "straatnamen"
def numbers := type 5 .phenomenon "huisnummers"

def livesAt     := element 6 .objectTypeRelation "woont op" person address
def suspectedOf := element 8 .objectTypeRelation "verdacht van" person crime
def street      := element 10 .variable "straatnaam" address streets
def houseNumber := element 12 .variable "huisnummer" address numbers

-- Addresses are told by two variables; no variable is listed for crimes.
def session : Session where
  next     := 14
  defaults := [(address, [street, houseNumber]), (crime, [])]

theorem goes_element {n n' n'' : Nat} {cls k k' : KindClass} {name a b : String}
    (hc : cls.isElement) (hk : k.isType) (hk' : k'.isType) :
    (element n cls name (type n' k a) (type n'' k' b)).Goes (type n' k a) (type n'' k' b) :=
  ElementKind.goes
    ⟨⟨_, _, _, rfl, hc⟩, ⟨_, _, _, _, _, rfl, hk⟩, ⟨_, _, _, _, _, rfl, hk'⟩⟩

theorem ownDefaults : session.OwnDefaults := by
  simp only [Session.OwnDefaults, session, forall_mem_cons]
  refine ⟨⟨⟨rfl, address, streets, goes_element rfl rfl rfl, by simp [address, type]⟩,
    ⟨rfl, address, numbers, goes_element rfl rfl rfl, by simp [address, type]⟩, by simp⟩, ?_⟩
  simp

theorem identified (c : Term) (h : c = address ∨ c = crime) :
    Identified (c :: session.defaults.map (·.1)) := by
  obtain rfl | rfl := h
  all_goals
    simp only [Identified, session, map_cons, map_nil, forall_mem_cons]
    simp [address, crime, type, BEq.beq, same, serial?]

theorem between_livesAt : Between [livesAt] person address :=
  ⟨.single (goes_element rfl rfl rfl), fun _ ht => .inr (Option.some.inj ht ▸ rfl)⟩

theorem between_suspectedOf : Between [suspectedOf] person crime :=
  ⟨.single (goes_element rfl rfl rfl), fun _ ht => .inr (Option.some.inj ht ▸ rfl)⟩

-- From persons to the streets and numbers of their addresses, but not to crimes.
theorem addresses_told_crimes_lost : session.OwnDefaults ∧
    (Between [livesAt] person address ∧ Identified (address :: session.defaults.map (·.1)) ∧
      ∃ p' s', (extend [livesAt]).Gives session p' s' ∧ session.Extends [livesAt] p' ∧
        (∃ c' t s'', session.EndsIn [livesAt] address c' ∧ (compose p').Gives s' t s'' ∧
          t.Goes person c') ∧ p'.extend.Gives s' p' s') ∧
    Between [suspectedOf] person crime ∧ Identified (crime :: session.defaults.map (·.1)) ∧
      (extend [suspectedOf]).Gives session [.nothing, suspectedOf] session ∧
      ¬∃ p' s', (extend [suspectedOf]).Gives session p' s' ∧ session.Extends [suspectedOf] p' ∧
        (∃ c' t s'', session.EndsIn [suspectedOf] crime c' ∧ (compose p').Gives s' t s'' ∧
          t.Goes person c') ∧ p'.extend.Gives s' p' s' := by
  have ha := identified address (.inl rfl)
  have hc := identified crime (.inr rfl)
  have ⟨told, _⟩ := extend_composes_iff ownDefaults between_livesAt ha
  have ⟨lost, hlost⟩ := extend_composes_iff ownDefaults between_suspectedOf hc
  have hv : session.variablesFor [livesAt] = some [street, houseNumber] := rfl
  have hv' : session.variablesFor [suspectedOf] = some [] := rfl
  exact ⟨ownDefaults, ⟨between_livesAt, ha, told.mpr (by simp [hv])⟩, between_suspectedOf, hc,
    (hlost hv').left, fun h => lost.mp h hv'⟩

end Dwellings

end Path
end Inquiry
