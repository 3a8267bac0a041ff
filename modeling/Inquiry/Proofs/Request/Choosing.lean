import Mathlib
import Inquiry.Proofs.Run
import Inquiry.Proofs.Term.Equality
import Inquiry.Request.Path

/-!
The choice between paths. Edges earn points from the clues and from the ways that are preferred, and
the first of the paths that rank highest is chosen, unless a hint tells how the path has to start.
-/

namespace Inquiry

open List

namespace Term

structure Links (e d c : Term) : Prop where
  shape  : ∃ h ty s, e = .kind h ty (some d) (some c) s ∧ h.cls.isElement
  source : d.role? = some .type
  target : c.role? = some .type

-- A kind that can be a clue: an element has to tell where it goes from.
def CanBeClue (k : Term) : Prop :=
  ∃ h ty d c s, k = .kind h ty d c s ∧ (h.cls.isElement → ∃ o, d = some o ∧ o.role? = some .type)

def ends : Term → List Term
  | kind _ _ d c _ => d.toList ++ c.toList
  | _              => []

-- The object type that a constant stands for, if its set of values has one.
def standsFor (override : TermTable Term) : Term → Option Term
  | kind h _ (some d) c _ =>
    if h.cls.isElement && d.equals .one then override.get? (c.getD .nothing) else none
  | _ => none

theorem isEqualTo_of_role {t : Term} {r : Role} (h : t.role? = some r) (u : Term) :
    t.isEqualTo u = .ok (t.equals u) := by
  cases t <;> simp_all [role?, Term.isEqualTo]

theorem hasRole_kind (h : KindHead) (ty d c q : Option Term) :
    (kind h ty d c q).hasRole .element = .ok h.cls.isElement := by
  simp only [hasRole, role, role?, KindClass.role, KindClass.isElement]
  cases h.cls.isType <;> rfl

namespace Links

variable {e d c : Term}

theorem isEqualTo (h : e.Links d c) (t : Term) : e.isEqualTo t = .ok (e.equals t) := by
  obtain ⟨_, _, _, rfl, _⟩ := h.shape
  rfl

theorem domain?_eq (h : e.Links d c) : e.domain? = .ok (some d) := by
  obtain ⟨_, _, _, rfl, hc⟩ := h.shape
  simp [domain?, hc]

theorem domain_eq (h : e.Links d c) : e.domain = .ok d := by
  simp [domain, h.domain?_eq]

theorem codomain?_eq (h : e.Links d c) : e.codomain? = .ok (some c) := by
  obtain ⟨_, _, _, rfl, hc⟩ := h.shape
  simp [codomain?, hc]

theorem codomain_eq (h : e.Links d c) : e.codomain = .ok c := by
  simp [codomain, h.codomain?_eq]

theorem ends_eq (h : e.Links d c) : e.ends = [d, c] := by
  obtain ⟨_, _, _, rfl, _⟩ := h.shape
  rfl

end Links
end Term

-- The edge is the way to go from where it begins.
def Session.prefers (s : Session) (edge : Term) : Bool :=
  edge.ends.head?.any fun d => (s.whichWay.get? d).any (edge == ·)

namespace Path

open Term

section Points

-- What a clue tells in favour of an edge.
def cluePoints (override : TermTable Term) (edge clue : Term) : Nat :=
  (if edge.equals clue then 10 else 0) + (if edge.ends.any (·.equals clue) then 4 else 0) +
    if (clue.standsFor override).any fun o => edge.ends.any (·.equals o) then 2 else 0

def edgePoints (s : Session) (clues : List Term) (edge : Term) : Nat :=
  (clues.map (cluePoints s.override edge)).sum + if s.prefers edge then 1 else 0

def points (s : Session) (clues : List Term) (p : Path) : Nat :=
  (p.map (edgePoints s clues)).sum

variable {s : Session} {edge clue d c : Term} {clues : List Term} {p : Path}

theorem meantByConstant_eq (override : TermTable Term) (he : edge.Links d c)
    (hc : clue.CanBeClue) : meantByConstant override edge clue =
      .ok ((clue.standsFor override).any fun o => edge.ends.any (·.equals o)) := by
  obtain ⟨h, ty, start, goal, q, rfl, hstart⟩ := hc
  rw [he.ends_eq, meantByConstant, hasRole_kind]
  cases hel : h.cls.isElement
  case false => cases start <;> simp [standsFor, hel]
  case true =>
    obtain ⟨o, rfl, ho⟩ := hstart hel
    have hd : (kind h ty (some o) goal q).domain = .ok o := by simp [domain, domain?, hel]
    have hg : (kind h ty (some o) goal q).goal = .ok (goal.getD .nothing) := by
      simp [Term.goal, codomain?, hel]
    simp only [ok_bind, if_true, hd, hg, isEqualTo_of_role ho, standsFor, hel, Bool.true_and,
      he.domain_eq, he.codomain_eq, isEqualTo_of_role he.source, isEqualTo_of_role he.target]
    cases o.equals .one
    case false => rfl
    case true =>
      cases override.get? (goal.getD .nothing)
      case none => rfl
      case some t => cases hd : d.equals t <;> simp [hd]

theorem clueScore_eq (override : TermTable Term) (he : edge.Links d c) (hc : clue.CanBeClue) :
    clueScore override edge clue = .ok (cluePoints override edge clue) := by
  simp only [clueScore, meantByConstant_eq override he hc, he.isEqualTo, he.domain_eq,
    he.codomain_eq, isEqualTo_of_role he.source, isEqualTo_of_role he.target, ok_bind, cluePoints]
  cases hd : d.equals clue <;> simp [he.ends_eq, hd]

theorem mapM_eq_map {f : α → Except ε β} {g : α → β} {as : List α}
    (h : ∀ a ∈ as, f a = .ok (g a)) : as.mapM f = .ok (as.map g) := by
  induction as
  case nil => rfl
  case cons a as ih =>
    have ⟨ha, has⟩ := forall_mem_cons.mp h
    simp [mapM_cons, ha, ih has]

theorem foldl_add_eq (ns : List Nat) (n : Nat) : ns.foldl (· + ·) n = ns.sum + n := by
  have h : ns.foldl (· + ·) (n + 0) = n + ns.foldl (· + ·) 0 := foldl_assoc
  rw [sum_eq_foldl, Nat.add_comm, ← h, Nat.add_zero]

theorem edgeScore_eq (he : edge.Links d c) (hc : ∀ clue ∈ clues, clue.CanBeClue) :
    edgeScore s clues edge = .ok (edgePoints s clues edge) := by
  have hpref : s.prefers edge = (s.whichWay.get? d).any (edge == ·) := by
    rw [Session.prefers, he.ends_eq]
    rfl
  simp only [edgeScore, mapM_eq_map fun clue h => clueScore_eq s.override he (hc clue h), ok_bind,
    source, he.domain?_eq, Except.map_ok, Option.getD_some, edgePoints, hpref]
  cases s.whichWay.get? d <;> simp [foldl_add_eq]

theorem score_eq (hp : ∀ e ∈ p, ∃ d c, e.Links d c) (hc : ∀ clue ∈ clues, clue.CanBeClue) :
    score s clues p = .ok (points s clues p) := by
  have he (e : Term) (h : e ∈ p) : edgeScore s clues e = .ok (edgePoints s clues e) :=
    have ⟨_, _, he⟩ := hp e h
    edgeScore_eq he hc
  simp [score, mapM_eq_map he, foldl_add_eq, points]

end Points

section Choice

-- How much a path is preferred: the points come first, then the length.
def rank (s : Session) (clues : List Term) (p : Path) : Nat ×ₗ Nat :=
  toLex (points s clues p, p.length)

def FirstBest (s : Session) (clues : List Term) (ps : List Path) (q : Path) : Prop :=
  ∃ before after, ps = before ++ q :: after ∧
    (∀ p ∈ before, rank s clues p < rank s clues q) ∧
    ∀ p ∈ after, rank s clues p ≤ rank s clues q

variable {s : Session} {clues : List Term} {hint p q b : Path} {ps : List Path} {n? : Option Nat}

namespace FirstBest

theorem single (p : Path) : FirstBest s clues [p] p :=
  ⟨[], [], rfl, by simp, by simp⟩

theorem head_le (h : FirstBest s clues (p :: ps) q) : rank s clues p ≤ rank s clues q := by
  obtain ⟨before, after, heq, hb, _⟩ := h
  cases before
  case nil => rw [(List.cons.inj heq).left]
  case cons =>
    obtain ⟨rfl, _⟩ := List.cons.inj heq
    exact (hb p (by simp)).le

theorem replace (h : FirstBest s clues (p :: ps) q) (hlt : rank s clues b < rank s clues p) :
    FirstBest s clues (b :: p :: ps) q := by
  have hb : rank s clues b < rank s clues q := hlt.trans_le h.head_le
  obtain ⟨before, after, heq, hbefore, hafter⟩ := h
  exact ⟨b :: before, after, by rw [heq]; rfl, forall_mem_cons.mpr ⟨hb, hbefore⟩, hafter⟩

theorem keep (h : FirstBest s clues (b :: ps) q) (hle : rank s clues p ≤ rank s clues b) :
    FirstBest s clues (b :: p :: ps) q := by
  have hp : rank s clues p ≤ rank s clues q := hle.trans h.head_le
  obtain ⟨before, after, heq, hbefore, hafter⟩ := h
  cases before
  case nil =>
    obtain ⟨rfl, rfl⟩ := List.cons.inj heq
    exact ⟨[], p :: ps, rfl, by simp, forall_mem_cons.mpr ⟨hp, hafter⟩⟩
  case cons a before =>
    obtain ⟨rfl, rfl⟩ := List.cons.inj heq
    have ⟨hb, hbefore⟩ := forall_mem_cons.mp hbefore
    refine ⟨b :: p :: before, after, rfl, ?_, hafter⟩
    exact forall_mem_cons.mpr ⟨hb, forall_mem_cons.mpr ⟨hle.trans_lt hb, hbefore⟩⟩

theorem mem (h : FirstBest s clues ps q) : q ∈ ps := by
  obtain ⟨before, after, rfl, _⟩ := h
  simp

theorem le (h : FirstBest s clues ps q) (hp : p ∈ ps) : rank s clues p ≤ rank s clues q := by
  obtain ⟨before, after, rfl, hbefore, hafter⟩ := h
  rcases mem_append.mp hp with hp | hp
  case inl => exact (hbefore p hp).le
  case inr =>
    rcases mem_cons.mp hp with rfl | hp
    case inl => exact le_rfl
    case inr => exact hafter p hp

end FirstBest

theorem isPrefix_eq (p q : Path) : isPrefix p q = p.isPrefixOf q := by
  induction p generalizing q
  case nil => simp [isPrefix]
  case cons t p ih =>
    cases q
    case nil => simp [isPrefix]
    case cons u q =>
      have htu : (u == t) = (t == u) := Bool.eq_iff_iff.mpr ⟨beq_symm, beq_symm⟩
      have ih := ih q
      simp only [isPrefix] at ih
      simp [isPrefix, List.isPrefixOf, ← ih, htu, Bool.and_left_comm]

-- One step of the search: the first path of a list takes the place of the best one so far exactly
-- if it ranks higher.
theorem bestFrom_cons (hk : score s clues p = .ok (points s clues p))
    (hh : (!hint.isEmpty && isPrefix hint p) = false) :
    bestFrom s clues hint (p :: ps) (some (points s clues b)) b =
      let next := if rank s clues b < rank s clues p then p else b
      bestFrom s clues hint ps (some (points s clues next)) next := by
  simp only [bestFrom, hh, Bool.false_eq_true, if_false, hk, ok_bind, rank,
    Prod.Lex.toLex_lt_toLex]
  split
  case isTrue h => rw [if_pos (.inl h)]
  case isFalse h =>
    split
    case isTrue he =>
      obtain ⟨he, hl⟩ : points s clues p = points s clues b ∧ b.length < p.length := by
        simpa using he
      rw [if_pos (.inr ⟨he.symm, hl⟩), he]
    case isFalse he =>
      rw [if_neg]
      rintro (hlt | ⟨heq, hl⟩)
      case inl => exact h hlt
      case inr => exact he (by simp [heq, hl])

theorem bestFrom_firstBest (hk : ∀ p ∈ ps, score s clues p = .ok (points s clues p))
    (hh : ∀ p ∈ ps, (!hint.isEmpty && isPrefix hint p) = false) :
    ∃ q, bestFrom s clues hint ps (some (points s clues b)) b = .ok q ∧
      FirstBest s clues (b :: ps) q := by
  induction ps generalizing b
  case nil => exact ⟨b, rfl, .single b⟩
  case cons p ps ih =>
    have ⟨hkp, hk⟩ := forall_mem_cons.mp hk
    have ⟨hhp, hh⟩ := forall_mem_cons.mp hh
    rw [bestFrom_cons hkp hhp]
    split
    case isTrue hlt =>
      have ⟨q, hq, hb⟩ := ih (b := p) hk hh
      exact ⟨q, hq, hb.replace hlt⟩
    case isFalse hle =>
      have ⟨q, hq, hb⟩ := ih (b := b) hk hh
      exact ⟨q, hq, hb.keep (not_lt.mp hle)⟩

-- A path that starts with the hint ends the search, whatever was best so far.
theorem bestFrom_hinted (hk : ∀ p ∈ ps, ∃ n, score s clues p = .ok n) (hn : hint ≠ [])
    (hf : ps.find? (hint.isPrefixOf ·) = some q) : bestFrom s clues hint ps n? b = .ok q := by
  induction ps generalizing n? b
  case nil => simp at hf
  case cons p ps ih =>
    have ⟨⟨n, hp⟩, hk⟩ := forall_mem_cons.mp hk
    cases h : hint.isPrefixOf p
    case true =>
      obtain rfl : p = q := by simpa [h] using hf
      simp [bestFrom, isPrefix_eq, h, hn]
    case false =>
      have hf : ps.find? (hint.isPrefixOf ·) = some q := by simpa [h] using hf
      have later {n? : Option Nat} {b : Path} : bestFrom s clues hint ps n? b = .ok q := ih hk hf
      cases n? <;> simp [bestFrom, isPrefix_eq, h, hp, later]

theorem best_firstBest (hk : ∀ p ∈ ps, score s clues p = .ok (points s clues p))
    (hh : ∀ p ∈ ps, (!hint.isEmpty && isPrefix hint p) = false) (hn : ps ≠ []) :
    ∃ q, best s ps clues hint = .ok q ∧ FirstBest s clues ps q := by
  cases ps
  case nil => exact absurd rfl hn
  case cons p ps =>
    have ⟨hkp, hk⟩ := forall_mem_cons.mp hk
    have ⟨hhp, hh⟩ := forall_mem_cons.mp hh
    simpa [best, bestFrom, hhp, hkp] using bestFrom_firstBest (b := p) hk hh

-- The path that is chosen is the first that starts with the hint. Without a hint, or if no path
-- starts with it, the first of those that rank highest is chosen.
theorem best_first (s : Session) (hint : Path) (hp : ∀ p ∈ ps, ∀ e ∈ p, ∃ d c, e.Links d c)
    (hc : ∀ clue ∈ clues, clue.CanBeClue) :
    ∃ q, best s ps clues hint = .ok q ∧
      (hint ≠ [] → ∀ p, ps.find? (hint.isPrefixOf ·) = some p → q = p) ∧
      (hint = [] ∨ ps.find? (hint.isPrefixOf ·) = none → ps ≠ [] → FirstBest s clues ps q) ∧
      (ps = [] → q = []) := by
  have hk (p : Path) (h : p ∈ ps) : score s clues p = .ok (points s clues p) := score_eq (hp p h) hc
  by_cases hh : hint = [] ∨ ps.find? (hint.isPrefixOf ·) = none
  case neg =>
    have ⟨hn, hf⟩ := not_or.mp hh
    obtain ⟨q, hf⟩ := Option.ne_none_iff_exists'.mp hf
    refine ⟨q, bestFrom_hinted (fun p h => ⟨_, hk p h⟩) hn hf, fun _ p h => ?_, (absurd · hh), ?_⟩
    · exact Option.some.inj (hf.symm.trans h)
    · rintro rfl
      simp at hf
  case pos =>
    have hno (p : Path) (h : p ∈ ps) : (!hint.isEmpty && isPrefix hint p) = false := by
      rw [isPrefix_eq]
      rcases hh with rfl | hh
      case inl => rfl
      case inr => simp [by simpa using List.find?_eq_none.mp hh p h]
    by_cases hps : ps = []
    case pos =>
      subst hps
      exact ⟨[], rfl, by simp, by simp, fun _ => rfl⟩
    case neg =>
      have ⟨q, hq, hb⟩ := best_firstBest hk hno hps
      refine ⟨q, hq, fun hn p h => ?_, fun _ _ => hb, (absurd · hps)⟩
      simp [hh.resolve_left hn] at h

end Choice

namespace Travel

def type (n : Nat) (cls : KindClass) (sort : TermSort) (name : String) : Term :=
  .kind { serial := n, id := .fresh n, cls, name, sort } none none none none

def person  := type 1 .objectType .objectType "persoon"
def company := type 2 .objectType .objectType "bedrijf"
def address := type 3 .objectType .objectType "adres"
def towns   := type 4 .phenomenon .phenomenon "gemeenten"

def edge (n : Nat) (name : String) (d c : Term) : Term :=
  .kind
    { serial := n, id := .fresh n, cls := .objectTypeRelation, name, sort := .objectTypeRelation }
    (some (.app (n + 1) .functionalType [d, c] none)) (some d) (some c) none

def bornAt   := edge 10 "geboren op" person address
def livesAt  := edge 12 "woont op" person address
def worksFor := edge 14 "werkt bij" person company
def seatedAt := edge 16 "gevestigd op" company address

def town : Term :=
  .kind { serial := 18, id := .fresh 18, cls := .constant, name := "Utrecht", sort := .constant }
    (some (.app 19 .functionalType [.one, towns] none)) (some .one) (some towns) none

def openVariable : Term :=
  .kind { serial := 20, id := .fresh 20, cls := .variable, name := "x", sort := .variable }
    none none none none

def session : Session where
  whichWay := [(person, livesAt)]
  override := [(towns, address)]

def ways : List Path := [[bornAt], [livesAt], [seatedAt, worksFor]]

theorem links_edge {d c : Term} (n : Nat) (name : String) (hd : d.role? = some .type)
    (hc : c.role? = some .type) : (edge n name d c).Links d c :=
  ⟨⟨_, _, _, rfl, rfl⟩, hd, hc⟩

theorem links_ways : ∀ p ∈ ways, ∀ e ∈ p, ∃ d c, e.Links d c := by
  simp only [ways, forall_mem_cons, not_mem_nil, false_imp_iff, implies_true, and_true]
  exact ⟨⟨_, _, links_edge _ _ rfl rfl⟩, ⟨_, _, links_edge _ _ rfl rfl⟩,
    ⟨_, _, links_edge _ _ rfl rfl⟩, _, _, links_edge _ _ rfl rfl⟩

theorem canBeClue : ∀ clue ∈ [town, company], clue.CanBeClue := by
  simp only [forall_mem_cons, not_mem_nil, false_imp_iff, implies_true, and_true]
  exact ⟨⟨_, _, _, _, _, rfl, fun _ => ⟨_, rfl, rfl⟩⟩, _, _, _, _, _, rfl, nofun⟩

-- An element that does not tell where it goes from is no clue: the search fails on it.
theorem openVariable_ends_search : openVariable.isKind ∧ (∃ d c, livesAt.Links d c) ∧
    best session [[livesAt]] [openVariable] [] = .error .absent :=
  ⟨rfl, ⟨_, _, links_edge _ _ rfl rfl⟩, rfl⟩

-- The way that is preferred has one point more than the one before it. The company tells most,
-- unless the hint is to start with the place of birth.
theorem ways_chosen : ways.map (points session [town, company]) = [2, 3, 10] ∧
    best session ways [town, company] [] = .ok [seatedAt, worksFor] ∧
    best session ways [town, company] [bornAt] = .ok [bornAt] := by
  refine ⟨by decide, ?_, ?_⟩
  case refine_1 =>
    obtain ⟨q, hq, _, hbest, _⟩ := best_first session [] links_ways canBeClue
    have hbest : FirstBest session [town, company] ways q := hbest (.inl rfl) (by simp [ways])
    have hle : rank session [town, company] [seatedAt, worksFor] ≤ rank session [town, company] q :=
      hbest.le (by simp [ways])
    rw [hq]
    rcases (by simpa [ways] using hbest.mem : q = _ ∨ q = _ ∨ q = _) with rfl | rfl | rfl
    case inl     => exact absurd hle (by decide)
    case inr.inl => exact absurd hle (by decide)
    case inr.inr => rfl
  case refine_2 =>
    obtain ⟨q, hq, hhint, _⟩ := best_first session [bornAt] links_ways canBeClue
    rw [hq, hhint (by simp) [bornAt] rfl]

end Travel
end Path
end Inquiry
