import Mathlib
import Inquiry.Proofs.Run
import Inquiry.Proofs.Term.Equality
import Inquiry.Term.Pattern

/-!
What the gaps of a pattern stand for in a term that matches it. Each time an end of a kind is compared
the table of gaps is emptied, so that only what is met after the last of these ends counts.
-/

namespace Inquiry

open List

namespace Term

-- A term without gaps among its arguments and the ends of its kinds.
def concrete : Term → Bool
  | kind _ _ d c _ => concreteEnd d && concreteEnd c
  | gap ..         => false
  | app _ _ args _ => concreteList args
  | _              => true
where
  concreteEnd : Option Term → Bool
    | none   => true
    | some t => concrete t
  concreteList : List Term → Bool
    | []      => true
    | t :: ts => concrete t && concreteList ts

-- What happens in turn when a term is compared with a pattern: a gap meets a part of the term, or the
-- table of gaps is emptied.
def trace : Term → Term → List (Option (Term × Term))
  | kind h _ d c _, kind _ _ d' c' _ =>
    if h.cls.isType then [] else none :: traceEnd d d' ++ none :: traceEnd c c'
  | app _ _ args _, app _ _ args' _ => traceList args args'
  | t, p@(gap ..) => [some (p, t)]
  | _, _ => []
where
  traceEnd : Option Term → Option Term → List (Option (Term × Term))
    | some t, p             => trace t (p.getD nothing)
    | none, some p@(gap ..) => [some (p, nothing)]
    | none, _               => []
  traceList : List Term → List Term → List (Option (Term × Term))
    | t :: ts, p :: ps => trace t p ++ traceList ts ps
    | _, _             => []

def follow (m : TermTable Term) : Option (Term × Term) → Option (TermTable Term)
  | none        => some []
  | some (g, t) =>
    match m.get? g with
    | some u => if u.equals t then some m else none
    | none   => some (m ++ [(g, t)])

variable {m m' : TermTable Term} {g t u p : Term}

theorem put_of_get?_eq_none (h : m.get? g = none) : m.put g t = m ++ [(g, t)] := by
  induction m
  case nil => rfl
  case cons e m ih =>
    simp only [TermTable.get?, Option.map_eq_none_iff, find?_eq_none, mem_cons] at h ih
    have he : ¬e.1 == g := h e (.inl rfl)
    simp [TermTable.put, he, ih fun e he => h e (.inr he)]

theorem follow_of_bindGap (h : Runs (bindGap g t) m true m') : follow m (some (g, t)) = some m' := by
  obtain ⟨_, _, hget, h⟩ := h.of_bind
  cases hget
  cases hg : m.get? g
  case none =>
    simp only [hg] at h
    cases h
    simp [follow, hg, put_of_get?_eq_none hg]
  case some u =>
    have hu : u.equals t ∧ m = m' := by
      simp only [hg] at h
      cases u <;> simp_all
    obtain ⟨hu, rfl⟩ := hu
    simp [follow, hg, hu]

theorem follow_gap {k : GapHead} {ty : Option Term} (h : Runs (bindGap (gap k ty) t) m true m') :
    [some (gap k ty, t)].foldlM follow m = some m' := by
  simpa using follow_of_bindGap h

mutual

theorem follow_trace : {t p : Term} → {m m' : TermTable Term} → t.concrete →
    Runs (matchPart t p) m true m' → (trace t p).foldlM follow m = some m'
  | kind k _ d c _, p, m, m', hc, h => by
    rw [concrete, Bool.and_eq_true] at hc
    cases p <;> simp only [matchPart, Runs.pure_iff, Bool.false_eq_true, false_and] at h
    case gap => exact follow_gap h
    case kind =>
      split at h
      case isFalse => simp at h
      case isTrue =>
        rw [trace]
        split at h
        case isTrue hk => simp_all
        case isFalse hk =>
          obtain ⟨b, m₁, hd, h⟩ := h.of_bind
          cases b
          case false => simp at h
          case true =>
            rw [if_neg hk, foldlM_append, follow_traceEnd hc.left hd]
            exact follow_traceEnd hc.right h
  | app _ op args _, p, m, m', hc, h => by
    rw [concrete] at hc
    cases p <;> simp only [matchPart, Runs.pure_iff, Bool.false_eq_true, false_and] at h
    case gap => exact follow_gap h
    case app =>
      split at h
      case isFalse => simp at h
      case isTrue  => exact follow_traceList hc h
  | gap .., _, _, _, hc, _ => by simp [concrete] at hc
  | number _, p, m, m', _, h | flag _, p, m, m', _, h | nothing, p, m, m', _, h => by
    cases p <;> simp [matchPart] at h
    exact follow_gap h

theorem follow_traceEnd : {e p : Option Term} → {m m' : TermTable Term} → concrete.concreteEnd e →
    Runs (matchPart.matchEnd e p) m true m' → (none :: trace.traceEnd e p).foldlM follow m = some m'
  | some t, p, m, m', hc, h => by
    rw [matchPart.matchEnd] at h
    obtain ⟨_, _, hset, h⟩ := h.of_bind
    cases hset
    exact follow_trace hc h
  | none, p, m, m', _, h => by
    rcases p with _ | p
    case none =>
      obtain ⟨_, _, _, h⟩ := h.of_bind
      simp at h
    case some =>
      cases p <;> obtain ⟨_, _, hset, h⟩ := h.of_bind <;> cases hset
      case gap => exact follow_gap h
      all_goals simp at h

theorem follow_traceList : {ts ps : List Term} → {m m' : TermTable Term} → concrete.concreteList ts →
    Runs (matchPart.matchList ts ps) m true m' → (trace.traceList ts ps).foldlM follow m = some m'
  | [], ps, m, m', hc, h => by cases ps <;> simpa [trace.traceList, matchPart.matchList] using h
  | t :: ts, [], m, m', hc, h => by simpa [trace.traceList, matchPart.matchList] using h
  | t :: ts, p :: ps, m, m', hc, h => by
    rw [concrete.concreteList, Bool.and_eq_true] at hc
    rw [matchPart.matchList] at h
    obtain ⟨b, m₁, ht, h⟩ := h.of_bind
    cases b
    case false => simp at h
    case true =>
      rw [trace.traceList, foldlM_append, follow_trace hc.left ht]
      exact follow_traceList hc.right h

end

-- What is met after the table was emptied for the last time, and what was met before that.
def recent (es : List (Option (Term × Term))) : List (Term × Term) :=
  (es.rtakeWhile Option.isSome).reduceOption

def forgotten (es : List (Option (Term × Term))) : List (Term × Term) :=
  (es.rdropWhile Option.isSome).reduceOption

-- The table has the gap with the part that it meets, or with one that is equal to it.
def Holds (m : TermTable Term) (r : Term × Term) : Prop :=
  ∃ u, m.get? r.1 = some u ∧ (u = r.2 ∨ u.equals r.2)

-- Parts that meet the same gap are equal, and the table holds them.
structure Binds (m : TermTable Term) (rs : List (Term × Term)) : Prop where
  equal : rs.Pairwise fun r r' => r.1 == r'.1 → r.2.equals r'.2
  bound : ∀ r ∈ rs, Holds m r

variable {es : List (Option (Term × Term))} {rs : List (Term × Term)} {r : Term × Term}

theorem get?_congr (m : TermTable Term) (h : t == u) : m.get? t = m.get? u := by
  have hbeq : ∀ x : Term, (x == t) = (x == u) := fun x => by
    change t.same u at h
    change x.same t = x.same u
    simp only [same] at h ⊢
    cases ht : t.serial? <;> cases hu : u.serial? <;> cases hx : x.serial? <;> simp_all
  rw [TermTable.get?, TermTable.get?, find?_congr fun e _ => hbeq e.1]

theorem equals_of_both {v : Term} (h : v = t ∨ v.equals t) (h' : v.equals u) : t.equals u := by
  cases h
  case inl h => exact h ▸ h'
  case inr h => exact equals_trans (equals_symm h) h'

theorem Binds.concat (h : Binds m rs) (keeps : ∀ g u, m.get? g = some u → m'.get? g = some u)
    (agrees : ∀ u, m.get? r.1 = some u → u.equals r.2)
    (new : Holds m' r) : Binds m' (rs ++ [r]) where
  equal := by
    refine pairwise_append.mpr ⟨h.equal, by simp, fun r' hr' x hx he => ?_⟩
    obtain rfl := mem_singleton.mp hx
    obtain ⟨v, hv, hr'⟩ := h.bound r' hr'
    exact equals_of_both hr' (agrees v (get?_congr m he ▸ hv))
  bound := by
    intro x hx
    cases mem_append.mp hx
    case inl hx =>
      obtain ⟨v, hv, hx⟩ := h.bound x hx
      exact ⟨v, keeps x.1 v hv, hx⟩
    case inr hx => exact mem_singleton.mp hx ▸ new

theorem Binds.follow (h : Binds m rs) (hf : follow m (some r) = some m') :
    Binds m' (rs ++ [r]) ∧ ∀ e ∈ m', e ∈ m ∨ e = r := by
  rw [Term.follow] at hf
  split at hf
  case h_1 u hu =>
    obtain ⟨heq, rfl⟩ : u.equals r.2 ∧ m = m' := by simpa using hf
    exact ⟨h.concat (fun _ _ => id) (by simp [hu, heq]) ⟨u, hu, .inr heq⟩, fun e => .inl⟩
  case h_2 hn =>
    cases hf
    have happ : ∀ g, TermTable.get? (m ++ [r]) g = (m.get? g).or (TermTable.get? [r] g) := by
      simp [TermTable.get?, find?_append, Option.map_or]
    refine ⟨h.concat (fun g u hg => by simp [happ, hg]) (by simp [hn]) ⟨r.2, ?_, .inl rfl⟩, by simp⟩
    rw [happ, hn]
    simp [TermTable.get?]

-- After each step the table has what has been met since it was emptied.
theorem binds_recent (h : es.foldlM Term.follow [] = some m) :
    Binds m (recent es) ∧ ∀ e ∈ m, e ∈ recent es := by
  induction es using List.reverseRecOn generalizing m
  case nil =>
    cases h
    exact ⟨⟨.nil, by simp [recent]⟩, by simp⟩
  case append_singleton es e ih =>
    obtain ⟨m₁, h₁, hf⟩ : ∃ m₁, es.foldlM Term.follow [] = some m₁ ∧ Term.follow m₁ e = some m := by
      simpa [foldlM_append, Option.bind_eq_some_iff] using h
    rcases e with _ | r
    case none =>
      cases hf
      rw [show recent (es ++ [none]) = [] by simp [recent]]
      exact ⟨⟨.nil, by simp⟩, by simp⟩
    case some =>
      obtain ⟨hb, hsub⟩ := ih h₁
      obtain ⟨hb', hsub'⟩ := hb.follow hf
      rw [show recent (es ++ [some r]) = recent es ++ [r] by simp [recent, reduceOption_append]]
      refine ⟨hb', fun e he => ?_⟩
      cases hsub' e he
      case inl he => exact mem_append_left _ (hsub e he)
      case inr he => simp [he]

theorem forgotten_append_recent (es : List (Option (Term × Term))) :
    forgotten es ++ recent es = es.reduceOption := by
  rw [forgotten, recent, ← reduceOption_append, rdropWhile_append_rtakeWhile]

theorem exists_mem_of_get? (h : m.get? g = some u) : ∃ e ∈ m, e.1 == g ∧ e.2 = u := by
  obtain ⟨e, he, rfl⟩ := Option.map_eq_some_iff.mp h
  exact ⟨e, mem_of_find?_eq_some he, by simpa using find?_some he, rfl⟩

-- A match holds what was met since the table was emptied for the last time. All of what was met is held
-- just if the parts met before that are met again.
theorem matches_binds_iff (t p : Term) (m : TermTable Term) (hc : t.concrete)
    (h : t.matches? p = (.ok true, m)) :
    Binds m (recent (trace t p)) ∧ (∀ e ∈ m, e ∈ recent (trace t p)) ∧
      (Binds m (trace t p).reduceOption ↔ ∀ r ∈ forgotten (trace t p),
        ∃ r' ∈ recent (trace t p), r'.1 == r.1 ∧ r'.2.equals r.2) := by
  obtain ⟨hb, hsub⟩ := binds_recent (follow_trace hc h)
  refine ⟨hb, hsub, ?_⟩
  rw [← forgotten_append_recent]
  constructor
  case mp =>
    intro hall r hr
    obtain ⟨u, hu, _⟩ := hall.bound r (List.mem_append_left _ hr)
    obtain ⟨e, he, heq, rfl⟩ := exists_mem_of_get? hu
    have hpair := (List.pairwise_append.mp hall.equal).right.right r hr e (hsub e he) (beq_symm heq)
    exact ⟨e, hsub e he, heq, equals_symm hpair⟩
  case mpr =>
    intro hagain
    have hbound : ∀ r ∈ forgotten (trace t p), ∃ u, m.get? r.1 = some u ∧ u.equals r.2 := by
      intro r hr
      obtain ⟨r', hr', heq, he⟩ := hagain r hr
      obtain ⟨u, hu, hur⟩ := hb.bound r' hr'
      refine ⟨u, get?_congr m heq ▸ hu, ?_⟩
      cases hur
      case inl hur => exact hur ▸ he
      case inr hur => exact equals_trans hur he
    have hequal : ∀ r ∈ forgotten (trace t p), ∀ r', Holds m r' → r.1 == r'.1 → r.2.equals r'.2 := by
      rintro r hr r' ⟨u, hu, hur⟩ he
      obtain ⟨v, hv, hvr⟩ := hbound r hr
      rw [get?_congr m he, hu] at hv
      exact equals_symm (equals_of_both hur (Option.some.inj hv ▸ hvr))
    have hall : ∀ r ∈ forgotten (trace t p) ++ recent (trace t p), Holds m r := by
      intro r hr
      cases List.mem_append.mp hr
      case inl hr => exact (hbound r hr).imp fun u hu => ⟨hu.left, .inr hu.right⟩
      case inr hr => exact hb.bound r hr
    refine ⟨List.pairwise_append.mpr ⟨List.pairwise_of_forall_mem_list fun r hr r' hr' => ?_, hb.equal,
      fun r hr r' hr' => hequal r hr r' (hb.bound r' hr')⟩, hall⟩
    exact hequal r hr r' (hall r' (List.mem_append_left _ hr'))

-- Persons are counted, but it is not held that they are the type that is counted.
namespace Counted

def kindOf (n : Nat) (cls : KindClass) (name : String) (d c : Option Term) : Term :=
  .kind { serial := n, id := .fresh n, cls, name, sort := cls.sort } none d c none

def person : Term := kindOf 1 .objectType "persoon" none none

def someType : Term := .gap { serial := 2, id := .fresh 2, name := "p", role := .type } none

def counting (n : Nat) (d : Term) : Term :=
  kindOf n .variable "een" (some d) (some (kindOf 3 .quantity "getal" none none))

theorem counted_type_not_held :
    (counting 4 person).matches? (counting 5 someType) = (.ok true, []) ∧
      ¬Binds [] [(someType, person)] := by
  have h : (counting 4 person).matches? (counting 5 someType) = (.ok true, []) := rfl
  refine ⟨h, fun hb => ?_⟩
  obtain ⟨_, hmem, _⟩ := (matches_binds_iff _ _ _ rfl h).right.right.mp hb _ List.mem_cons_self
  cases hmem

end Counted
end Term
end Inquiry
