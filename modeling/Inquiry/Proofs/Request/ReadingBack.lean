import Mathlib
import Inquiry.Proofs.Request.RoundTrips
import Inquiry.Proofs.Request.Selection

/-!
Reading the conditions back from a breakdown. The arguments of the composition, the tuple or the
selection that is found are all taken for the sides of conditions, so they can be read back only
from some of the breakdowns.
-/

namespace Inquiry

open List

open Explanation (pairs flat)

-- A single edge with a tuple of variables after it.
def Path.Tupled (p : Path) : Prop :=
  ∃ u e, p = [u, e] ∧ u.op? = some .product

-- Edges, and possibly a tuple of variables after them.
def Path.Drawn (p : Path) : Prop :=
  ∃ u ks, p = u :: ks ∧ (∀ k ∈ ks, k.isKind) ∧ (u.isKind ∨ u.op? = some .product ∧ ks ≠ [])

namespace Term

-- The path that a composition goes; any other term is a path of its own.
def route : Term → Path
  | .app _ .composition args _ => args
  | t                          => [t]

-- The paths that the conditions of a selection are about, in order.
def leftSides (selection : Term) : List Path :=
  (pairs selection).map (·.1.route)

def IsRoute (t : Term) : Prop :=
  t.isKind ∨ t.op? = some .composition

section LeftPaths

variable {t u : Term} {ts : List Term} {p : Path} {xs : List (Term × Term)}
  {n : Nat} {ty : Option Term}

theorem leftPaths_route (h : t.IsRoute) : leftPaths (t :: u :: ts) = t.route :: leftPaths ts := by
  cases t
  case app n op args ty =>
    obtain rfl : op = .composition := by simpa [IsRoute, isKind, op?] using h
    rfl
  all_goals simp [leftPaths, route]

theorem leftPaths_product (h : t.op? = some .product) :
    leftPaths (t :: u :: ts) = leftPaths ts := by
  cases t <;> simp only [op?, reduceCtorEq, Option.some.injEq] at h
  subst h
  rfl

theorem leftPaths_flat (h : ∀ x ∈ xs, x.1.IsRoute) : leftPaths (flat xs) = xs.map (·.1.route) := by
  induction xs
  case nil => rfl
  case cons x xs ih =>
    obtain ⟨hx, hxs⟩ := forall_mem_cons.mp h
    rw [Request.flat_cons, leftPaths_route hx, ih hxs, map_cons]

theorem leftPaths_ne_nil (h : t.isKind) : leftPaths (t :: ts) ≠ [] := by
  cases t <;> simp only [isKind, Bool.false_eq_true] at h
  cases ts <;> simp [leftPaths]

theorem leftPaths_eq_nil_iff (h : p.Drawn) (hn : 2 ≤ p.length) :
    leftPaths p = [] ↔ p.Tupled := by
  obtain ⟨u, ks, rfl, hks, hu⟩ := h
  rcases ks with _ | ⟨e, ks⟩
  case nil => simp at hn
  case cons =>
    rcases hu with hu | ⟨hu, _⟩
    case inl =>
      refine iff_of_false (leftPaths_ne_nil hu) ?_
      rintro ⟨_, _, he, ho⟩
      obtain ⟨rfl, _⟩ := List.cons.inj he
      cases u <;> simp [isKind, op?] at hu ho
    case inr =>
      rw [leftPaths_product hu]
      constructor
      · intro hl
        rcases ks with _ | ⟨k, ks⟩
        case nil  => exact ⟨u, e, rfl, hu⟩
        case cons => exact absurd hl (leftPaths_ne_nil (hks k (by simp)))
      · rintro ⟨_, _, he, _⟩
        obtain ⟨_, _, rfl⟩ : u = _ ∧ e = _ ∧ ks = [] := by simpa using he
        rfl

theorem args_of_isKind (h : t.isKind) : t.args = .error .absent := by
  cases t <;> simp [isKind] at h
  rfl

theorem selectionPaths_of_ne {op : Op} (h : op ≠ .inverse) :
    selectionPaths (.app n op ts ty) = .ok (leftPaths ts) := by
  have he : (op == .inverse) = false := by simpa using h
  simp [selectionPaths, he, args, pure, Except.pure]

theorem selectionPaths_route (h : t.IsRoute) : t.selectionPaths = leftPaths <$> t.args := by
  cases t
  case app n op args ty =>
    obtain rfl : op = .composition := by simpa [IsRoute, isKind, op?] using h
    exact selectionPaths_of_ne (by decide)
  all_goals first | rfl | simp [IsRoute, isKind, op?] at h

-- The last argument of what is turned round is taken for the selection.
theorem selectionPaths_inverse {m : Nat} {op : Op} {ty' : Option Term} (h : ts.getLast? = some t) :
    selectionPaths (.app n .inverse [.app m op ts ty] ty') = leftPaths <$> t.args := by
  have hz : Sequence.get [Term.app m op ts ty] 0 = .ok (.app m op ts ty) := rfl
  simp only [selectionPaths, beq_self_eq_true, if_true, hz, ok_bind, args, Request.get_last h]
  cases t.args <;> rfl

theorem selectionPaths_inverse_kind (h : t.isKind) :
    ∀ ps, selectionPaths (.app n .inverse [t] ty) ≠ .ok ps := by
  have hz : Sequence.get [t] 0 = .ok t := rfl
  cases t <;> simp only [isKind, Bool.false_eq_true] at h
  simp [selectionPaths, hz, args, bind, Except.bind]

end LeftPaths
end Term

-- A path of a single edge, to a type that several variables stand for.
def Session.Hides (s : Session) (p : Path) : Prop :=
  ∃ e vs, p = [e] ∧ s.variablesFor p = some vs ∧ 2 ≤ vs.length

namespace Request

open Term Session SessionM

-- What the paths give together, on the selection if there is one.
inductive TakenOn : Term → Term → Term → Prop
  | whole {selection} : TakenOn .nothing selection selection
  | plain {t} : t ≠ .nothing → TakenOn t .nothing t
  | part {t selection n ty} : t ≠ .nothing → selection ≠ .nothing →
    TakenOn t selection (.app n .composition [t, selection] ty)

-- A breakdown by the target itself is left as it is.
inductive TurnedTo (direct : Bool) : Term → Term → Prop
  | nothing : TurnedTo direct .nothing .nothing
  | same {u} : u ≠ .nothing → direct = true → TurnedTo direct u u
  | inverse {u n ty} : u ≠ .nothing → direct = false →
    TurnedTo direct u (.app n .inverse [u] ty)

-- How a breakdown is built of paths.
def Assembled (direct : Bool) (selection : Term) (ways : List Path) (x : Term) : Prop :=
  ∃ ts t u, Forall₂ (Joins .composition) ways ts ∧ Joins .product ts t ∧
    TakenOn t selection u ∧ TurnedTo direct u x

variable {s s₀ s' : Session} {r : Request} {pivot target selection t u x b : Term}
  {ps led ways : List Path} {p : Path} {ts cs : List Term}
  {direct : Bool} {n : Nat} {ty : Option Term}

theorem joins_of_gives {op : Op} (h : (joined op ts).Gives s t s') : Joins op ts t :=
  have hI : Steers fun _ => True := ⟨fun _ _ => trivial, fun _ _ _ => trivial,
    fun _ _ _ _ _ => trivial⟩
  (hI.keeps_joined op ts s trivial).right t (congrArg Prod.fst h)

theorem turnedTo_of_gives {y : Term × List Path} (h : (turned pivot target u ps).Gives s y s') :
    y.2 = ps ∧ TurnedTo (pivot == target) u y.1 := by
  rw [turned.eq_def] at h
  split at h
  case h_1 =>
    obtain ⟨rfl, _⟩ := gives_pure.mp h
    exact ⟨rfl, .nothing⟩
  case h_2 hn =>
    split at h
    case isTrue he =>
      obtain ⟨rfl, _⟩ := gives_pure.mp h
      exact ⟨rfl, .same hn he⟩
    case isFalse he =>
      obtain ⟨x, hx, rfl⟩ := gives_bind_pure.mp h
      obtain ⟨ha, _⟩ := gives_app_iff.mp hx
      obtain ⟨_, _, _, rfl⟩ := apply_eq_ok.mp ha
      exact ⟨rfl, .inverse hn (by simpa using he)⟩

theorem assembled_of_gives {y : Term × List Path}
    (h : (brokenDown pivot target selection ps led).Gives s y s') :
    y.2 = ps ∧ Assembled (pivot == target) selection ((led ++ ps).filter (!·.isEmpty)) y.1 := by
  obtain ⟨t, s₁, hsel, hend⟩ := gives_bind.mp h
  obtain ⟨ts, s₂, hall, hpair⟩ := gives_bind.mp hsel
  have hts := hall.mapM_forall₂ (R := Joins .composition) fun _ _ _ _ _ h => joins_of_gives h
  have ended {u : Term} {s : Session} (hu : TakenOn t selection u)
      (h : (turned pivot target u ps).Gives s y s') : y.2 = ps ∧
        Assembled (pivot == target) selection ((led ++ ps).filter (!·.isEmpty)) y.1 := by
    obtain ⟨hy, hx⟩ := turnedTo_of_gives h
    exact ⟨hy, ts, t, u, hts, joins_of_gives hpair, hu, hx⟩
  split at hend
  case h_1    => exact ended .whole hend
  case h_2 hn => exact ended (.plain hn) hend
  case h_3 hn hs =>
    obtain ⟨u, _, hu, hend⟩ := gives_bind.mp hend
    obtain ⟨_, _, rfl⟩ := joins_of_gives hu
    exact ended (.part hn hs) hend

-- A selection of conditions, each on a route and with a constant for its right side. None of the
-- routes is that constant.
structure Conditional (selection : Term) : Prop where
  made  : selection = .nothing ∨
    pairs selection ≠ [] ∧ ∃ n ty, selection = .app n .inclusion (flat (pairs selection)) ty
  left  : ∀ y ∈ pairs selection, y.1.IsRoute
  right : ∀ y ∈ pairs selection, ∃ n c a ty, y.2 = .app n .composition [c, a] ty ∧ c.isKind ∧
    [c] ∉ selection.leftSides

-- When the conditions are found in what is made of the paths.
def Recovers (direct : Bool) (selection : Term) (ways : List Path) : Prop :=
  if direct then
    ways = [] ∨ ∃ p, ways = [p] ∧ (selection = .nothing ∧ p.Tupled ∨ selection.leftSides = [p])
  else if selection matches .nothing then
    ways = [] ∨ 2 ≤ ways.length ∧ ∃ p, ways.getLast? = some p ∧ p.Tupled
  else ways ≠ []

theorem drawn_of_isKind (hn : p ≠ []) (h : ∀ k ∈ p, k.isKind) : p.Drawn := by
  cases p
  case nil       => exact absurd rfl hn
  case cons k ks => exact ⟨k, ks, rfl, fun k' hk' => h k' (by simp [hk']), .inl (h k (by simp))⟩

-- A route is an edge or a composition of several edges, and can be told from it.
theorem route_of_joins (hp : p.Drawn) (ht : Joins .composition p t) :
    t.IsRoute ∧ t.route = p ∧ (t.isKind ∧ p.length = 1 ∨
      2 ≤ p.length ∧ ∃ n ty, t = .app n .composition p ty) := by
  obtain ⟨u, ks, rfl, hks, hu⟩ := hp
  rcases ks with _ | ⟨k, ks⟩
  case nil =>
    obtain rfl : t = u := ht
    have hk : t.isKind := by simpa using hu
    refine ⟨.inl hk, ?_, .inl ⟨hk, rfl⟩⟩
    cases t <;> simp [isKind] at hk
    rfl
  case cons =>
    obtain ⟨n, ty, rfl⟩ := ht
    exact ⟨.inr rfl, rfl, .inr ⟨by simp, n, ty, rfl⟩⟩

theorem selectionPaths_selection (h : Conditional selection) :
    selection.selectionPaths = .ok selection.leftSides := by
  rcases h.made with rfl | ⟨_, n, ty, he⟩
  case inl => rfl
  case inr =>
    have hl := leftPaths_flat h.left
    rw [leftSides, ← hl]
    conv_lhs => rw [he]
    exact selectionPaths_of_ne (by decide)

theorem args_selection (h : Conditional selection) (hn : selection ≠ .nothing) :
    leftPaths <$> selection.args = .ok selection.leftSides := by
  obtain ⟨_, n, ty, he⟩ := h.made.resolve_left hn
  rw [leftSides, ← leftPaths_flat h.left]
  conv_lhs => rw [he]
  rfl

theorem leftSides_ne_nil (h : Conditional selection) (hn : selection ≠ .nothing) :
    selection.leftSides ≠ [] := by
  obtain ⟨hp, _⟩ := h.made.resolve_left hn
  simpa [leftSides] using hp

theorem selectionPaths_inverse_selection (h : Conditional selection) (hn : selection ≠ .nothing) :
    selectionPaths (.app n .inverse [selection] ty) ≠ .ok selection.leftSides := by
  obtain ⟨hp, m, ty', he⟩ := h.made.resolve_left hn
  obtain ⟨ys, y, hys⟩ := (eq_nil_or_concat (pairs selection)).resolve_left hp
  obtain ⟨k, c, a, ty'', hy, hc, hl⟩ := h.right y (by simp [hys])
  have hlast : (flat (pairs selection)).getLast? = some y.2 := by
    rw [hys, concat_eq_append, flat_append]
    simp [flat]
  have hread : selectionPaths (.app n .inverse [selection] ty) = .ok [[c]] := by
    conv_lhs => rw [he]
    rw [selectionPaths_inverse hlast, hy]
    cases c <;> simp [isKind] at hc
    rfl
  rw [hread]
  intro heq
  rw [← Except.ok.inj heq] at hl
  simp at hl

theorem read_none (h : Conditional selection) (hx : TurnedTo direct selection x) :
    x.selectionPaths = .ok selection.leftSides ↔ direct = true ∨ selection = .nothing := by
  cases hx
  case nothing    => exact iff_of_true rfl (.inr rfl)
  case same hd hn => exact iff_of_true (selectionPaths_selection h) (.inl hd)
  case inverse hd hn =>
    exact iff_of_false (selectionPaths_inverse_selection h hn) (by simp [hd, hn])

-- The edges of a path are taken for the sides of conditions.
theorem read_route (hp : p.Drawn) (ht : Joins .composition p t) :
    leftPaths <$> t.args = .ok [] ↔ p.Tupled := by
  obtain ⟨-, -, ⟨hk, hl⟩ | ⟨hl, n, ty, rfl⟩⟩ := route_of_joins hp ht
  case inl =>
    rw [args_of_isKind hk]
    refine iff_of_false (by simp) ?_
    rintro ⟨_, _, rfl, _⟩
    simp at hl
  case inr => simp [args, leftPaths_eq_nil_iff hp hl]

theorem read_path (hp : p.Drawn) (ht : Joins .composition p t) (hx : TurnedTo direct t x) :
    x.selectionPaths = .ok [] ↔ direct = true ∧ p.Tupled := by
  obtain ⟨hr, -, hroute⟩ := route_of_joins hp ht
  cases hx
  case nothing    => simp [IsRoute, isKind, op?] at hr
  case same hd hn => rw [selectionPaths_route hr, read_route hp ht, and_iff_right hd]
  case inverse hd hn =>
    refine iff_of_false ?_ (by simp [hd])
    rcases hroute with ⟨hk, _⟩ | ⟨hl, n, ty, rfl⟩
    case inl => exact selectionPaths_inverse_kind hk []
    case inr =>
      obtain ⟨u, ks, rfl, hks, _⟩ := hp
      have hn : ks ≠ [] := by
        rintro rfl
        simp at hl
      have hlast : (u :: ks).getLast? = some (ks.getLast hn) := by
        rw [getLast?_cons, getLast?_eq_some_getLast hn, Option.getD_some]
      rw [selectionPaths_inverse hlast, args_of_isKind (hks _ (getLast_mem hn))]
      simp

theorem read_paths (hw : ∀ p ∈ ways, p.Drawn) (hts : Forall₂ (Joins .composition) ways ts)
    (hn : 2 ≤ ways.length) (hx : TurnedTo direct (.app n .product ts ty) x) :
    x.selectionPaths = .ok [] ↔ direct = false ∧ ∃ p, ways.getLast? = some p ∧ p.Tupled := by
  cases hx
  case same hd _ =>
    refine iff_of_false ?_ (by simp [hd])
    rw [selectionPaths_of_ne (by decide)]
    rcases hts with _ | ⟨ht, _ | _⟩
    case nil      => simp at hn
    case cons.nil => simp at hn
    case cons.cons =>
      obtain ⟨hr, -, -⟩ := route_of_joins (hw _ (by simp)) ht
      simp [leftPaths_route hr]
  case inverse hd _ =>
    have hlast := rel_getLast? hts
    generalize hp : ways.getLast? = p? at hlast
    generalize ht : ts.getLast? = t? at hlast
    cases hlast
    case none =>
      obtain rfl := getLast?_eq_none_iff.mp hp
      simp at hn
    case some h =>
      rw [selectionPaths_inverse ht, read_route (hw _ (mem_of_getLast? hp)) h]
      simp [hd]

theorem recovers_inverse_iff (hn : selection ≠ .nothing) :
    Recovers false selection ways ↔ ways ≠ [] := by
  cases selection <;> simp_all [Recovers]

theorem read_part (h : Conditional selection) (hn : selection ≠ .nothing)
    (hx : TurnedTo direct (.app n .composition [t, selection] ty) x) :
    x.selectionPaths = .ok selection.leftSides ↔
      (direct = true → leftPaths [t, selection] = selection.leftSides) := by
  cases hx
  case same hd _    => simp [selectionPaths_of_ne, hd]
  case inverse hd _ =>
    refine iff_of_true ?_ (by simp [hd])
    rw [selectionPaths_inverse (t := selection) rfl, args_selection h hn]

theorem read_iff (h : Conditional selection) (hw : ∀ p ∈ ways, p.Drawn)
    (hx : Assembled direct selection ways x) :
    x.selectionPaths = .ok selection.leftSides ↔ Recovers direct selection ways := by
  obtain ⟨ts, t, u, hts, ht, hu, hx⟩ := hx
  rcases hts with _ | ⟨ht₁, _ | ⟨ht₂, hts⟩⟩
  case nil =>
    obtain rfl : t = .nothing := ht
    obtain rfl : u = selection := by
      cases hu
      case whole => rfl
      case plain => rfl
      case part h _ => exact absurd rfl h
    rw [read_none h hx]
    cases direct <;> cases u <;> simp [Recovers]
  case cons.nil p t₁ =>
    obtain rfl : t = t₁ := ht
    obtain ⟨hr, hroute, -⟩ := route_of_joins (hw p (by simp)) ht₁
    cases hu
    case whole => simp [IsRoute, isKind, op?] at hr
    case plain =>
      refine (read_path (hw p (by simp)) ht₁ hx).trans ?_
      cases direct <;> simp [Recovers, leftSides, pairs]
    case part n ty hn hs =>
      rw [read_part h hs hx, leftPaths_route hr, hroute]
      cases direct
      case true  => simp [Recovers, hs, leftPaths, eq_comm]
      case false => simp [recovers_inverse_iff hs]
  case cons.cons p₁ t₁ p₂ t₂ ws us =>
    obtain ⟨n, ty, rfl⟩ := ht
    cases hu
    case plain =>
      refine (read_paths hw (.cons ht₁ (.cons ht₂ hts)) (by simp) hx).trans ?_
      cases direct <;> simp [Recovers]
    case part hn hs =>
      rw [read_part h hs hx, leftPaths_product rfl]
      cases direct
      case true  =>
        simp [Recovers, leftPaths, (leftSides_ne_nil h hs).symm]
      case false => simp [recovers_inverse_iff hs]

theorem goes_of_inclusion (h : apply n .inclusion ts = .ok t)
    (hts : ∀ z ∈ ts, ∃ c, z.Goes pivot c) : ∃ b, t.Goes b pivot := by
  obtain ⟨ha, ty, hty, rfl⟩ := apply_eq_ok.mp h
  cases ts
  case nil => simp [Op.resultType] at hty
  case cons z zs =>
    have hw : ∀ z' ∈ z :: zs, z'.equals z' := fun z' hz => (hts z' hz).elim fun _ h => h.whole
    obtain ⟨c, hz⟩ := hts z (by simp)
    have hp : (Term.app (n + 1) .selection (z :: zs) none).IsType := isType_app rfl hw
    have hform : Op.selection.form (n + 1) (z :: zs) = .ok (.app (n + 1) .selection (z :: zs) none) := by
      simp [Op.form, show Op.selection.admits (z :: zs) = .ok true from ha]
    obtain rfl : some (Term.app (n + 1 + 1) .functionalType [_, pivot] none) = ty := by
      simpa [Op.resultType, hform, hz.dom, Op.form_functionalType hp hz.source] using hty
    exact ⟨_, goes_app rfl hw hp hz.source⟩

section Conditions

variable {ms : List Meaning} {es : Assoc Int Path} {e : Int × Path} {c : Term}

theorem Restricts.ne_const (h : Restricts s ms pivot e c) (hp : s.HasObjectType pivot) {c' w : Term}
    (hc : c'.Goes .one w) : e.2 ≠ [c'] := by
  intro he
  obtain ⟨v, _, hl, _⟩ := h.ends
  rw [he] at hl
  cases hl
  case single hg =>
    obtain rfl : pivot = .one := Except.ok.inj (hg.dom.symm.trans hc.dom)
    simpa [isObjectType, hasClass, cls?, one] using hp.cls
  case cons hl _ => exact absurd rfl hl.ne_nil

theorem conditional_of_gives (hs : s.Faithful) (hp : s.HasObjectType pivot)
    (hes : ∀ e ∈ es, ∃ c, Restricts s ms pivot e c ∧ c.isKind)
    (h : (selectionOf es ms pivot).Gives s selection s') :
    Conditional selection ∧ ∃ b, SelectedFrom pivot selection b := by
  have hes' : ∀ e ∈ es, ∃ c, Restricts s ms pivot e c := fun e he =>
    (hes e he).imp fun _ h => h.left
  obtain ⟨_, s₁, hfold, hr⟩ := gives_bind.mp h
  obtain ⟨ys, rfl, hy⟩ := collected_of_gives hs hp hes' hfold
  cases ys
  case nil =>
    obtain ⟨rfl, _⟩ := gives_pure.mp hr
    exact ⟨⟨.inl rfl, by simp [pairs], by simp [pairs]⟩, pivot, .all⟩
  case cons y ys =>
    obtain ⟨happly, rfl⟩ := gives_app_iff.mp hr
    have hgoes : ∃ b, selection.Goes b pivot := by
      refine goes_of_inclusion happly fun z hz => ?_
      obtain ⟨x, hx, hz⟩ := Explanation.mem_flat.mp hz
      obtain ⟨d, d', hd, hd', _⟩ := hy.typed x hx
      rcases hz with rfl | rfl
      case inl => exact ⟨d, hd⟩
      case inr => exact ⟨d', hd'⟩
    obtain ⟨-, ty, -, rfl⟩ := apply_eq_ok.mp happly
    obtain ⟨b, hb⟩ := hgoes
    refine ⟨?_, b, .some hb hp.typeKind.isType.whole⟩
    have hpairs : pairs (.app s₁.next .inclusion (flat (y :: ys)) ty) = y :: ys :=
      Explanation.pairUp_flat _
    have hroute : ∀ x ∈ y :: ys, x.1.IsRoute ∧ ∃ e ∈ es, x.1.route = e.2 := by
      intro x hx
      obtain ⟨e, he, hm⟩ := hy.made x hx
      obtain ⟨c, hc⟩ := hes' e he
      obtain ⟨hr, hroute, -⟩ := route_of_joins
        (drawn_of_isKind hc.ne_nil fun k hk => (hc.edges k hk).left) hm.left.joins
      exact ⟨hr, e, he, hroute⟩
    refine ⟨.inr ⟨by simp [hpairs], _, _, by rw [hpairs]⟩, ?_, ?_⟩
    · rw [hpairs]
      exact fun x hx => (hroute x hx).left
    · rw [leftSides, hpairs]
      intro x hx
      obtain ⟨e, he, hm⟩ := hy.made x hx
      obtain ⟨c, a, hc, -, hright⟩ := hm.right
      obtain ⟨c', hc', hk⟩ := hes e he
      obtain rfl : c' = c := by simpa using hc'.const.symm.trans hc
      obtain ⟨n, ty', hx₂⟩ := hright.joins
      refine ⟨n, c', a, ty', hx₂, hk, fun hmem => ?_⟩
      obtain ⟨x', hx', he'⟩ := mem_map.mp hmem
      obtain ⟨-, e', he'', hroute'⟩ := hroute x' hx'
      obtain ⟨c'', hc''⟩ := hes' e' he''
      obtain ⟨_, w, _, hw, _⟩ := hc'.ends
      exact hc''.ne_const hp hw (hroute'.symm.trans he')

end Conditions

theorem yields_of_gives {x : SessionM α} {P Q : α → Prop} (h : x.Yields s P)
    (hq : ∀ a s', x.Gives s a s' → Q a) : x.Yields s Q := by
  obtain ⟨a, s', hx, hl, hs', _⟩ := h
  exact ⟨a, s', hx, hl, hs', hq a s' hx⟩

-- The ways to the target that come before the dimensions: one if the target can be reached.
structure WayTo (s : Session) (pivot target : Term) (led : List Path) : Prop where
  drawn : ∀ p ∈ led, p.Drawn
  few   : led.length ≤ 1
  none  : led = [] ↔ (pivot == target) = true ∨ ¬s.graph.LeadsTo pivot target

-- A path of edges to a dimension.
structure Dimensional (s : Session) (pivot : Term) (p : Path) : Prop where
  leads : ∃ d c, s.Dimension pivot p d c
  edges : ∀ k ∈ p, k.isKind

theorem drawn_of_extends {q : Path} (h : Dimensional s pivot q) (he : s.Extends q p) :
    p.Drawn ∧ (p.Tupled ↔ s.Hides q) := by
  obtain ⟨d, c, hd⟩ := h.leads
  have hk := h.edges
  cases q
  case nil => exact absurd rfl hd.leads.ne_nil
  case cons k ks =>
    rw [Session.Extends] at he
    split at he
    case h_1 hv =>
      subst he
      refine ⟨drawn_of_isKind (by simp) hk, iff_of_false ?_ (by simp [Session.Hides, hv])⟩
      rintro ⟨_, _, hu, ho⟩
      obtain ⟨rfl, _⟩ := List.cons.inj hu
      have hk := hk k (by simp)
      cases k <;> simp [isKind, op?] at hk ho
    case h_2 vs hv =>
      obtain ⟨u, hu, rfl⟩ := he
      obtain ⟨hn, hvs⟩ := hd.defaults vs hv
      rcases vs with _ | ⟨v, _ | ⟨w, vs⟩⟩
      case nil => exact absurd rfl hn
      case cons.nil =>
        obtain rfl : u = v := hu
        have hvk : u.isKind := by
          have hv := (hvs u (by simp)).left
          cases u <;> simp [isVariable, hasClass, cls?] at hv
          rfl
        refine ⟨⟨u, k :: ks, rfl, hk, .inl hvk⟩, iff_of_false ?_ (by simp [Session.Hides, hv])⟩
        rintro ⟨_, _, hu, ho⟩
        obtain ⟨rfl, _⟩ := List.cons.inj hu
        cases u <;> simp [isKind, op?] at hvk ho
      case cons.cons =>
        obtain ⟨n, ty, rfl⟩ := hu
        refine ⟨⟨_, k :: ks, rfl, hk, .inr ⟨rfl, by simp⟩⟩, ?_⟩
        simp [Path.Tupled, Session.Hides, hv, op?]

theorem yields_breakdown_assembled (hs : s.Consistent) (hb : SelectedFrom pivot selection b)
    (hr : r.Refers s) (hp : s.HasObjectType pivot) (ht : s.HasObjectType target)
    (hps : ∀ p ∈ ps, Dimensional s pivot p) :
    (r.breakdown pivot target selection ps .nothing).Yields s fun y =>
      Forall₂ s.Extends ps y.2 ∧ ∃ led, WayTo s pivot target led ∧
        Assembled (pivot == target) selection (led ++ y.2) y.1 := by
  refine yields_breakdown hs (fun p hm => (hps p hm).leads) (fun _ => ⟨hr, hp, ht, .inl rfl⟩) ?_
  intro s' led ps' cs hs' hext hfan hled
  obtain ⟨ts, hway, hts⟩ : ∃ ts, WayTo s pivot target (led.filter (!·.isEmpty)) ∧
      Path.Fan pivot (led.filter (!·.isEmpty)) ts := by
    split at hled
    case isTrue he =>
      subst hled
      exact ⟨[], ⟨by simp, by simp, by simp [he]⟩, .nil⟩
    case isFalse he =>
      simp only [ledTo, if_true, forall₂_cons_left_iff, forall₂_nil_left_iff] at hled
      obtain ⟨way, _, hway, rfl, rfl⟩ := hled
      rw [Way] at hway
      split at hway
      case isTrue htr =>
        subst hway
        exact ⟨[], ⟨by simp, by simp, by simp [Graph.LeadsTo, Graph.Reaches, htr]⟩, .nil⟩
      case isFalse htr =>
        have hf : [way].filter (!·.isEmpty) = [way] := by simpa using hway.left.ne_nil
        have hkind : ∀ k ∈ way, k.isKind := by
          intro k hk
          obtain ⟨_, _, hk⟩ := hway.right k hk
          obtain ⟨_, _, _, rfl, _⟩ := hk.shape
          rfl
        rw [hf]
        refine ⟨[target], ⟨by simpa using drawn_of_isKind hway.left.ne_nil hkind, by simp, ?_⟩,
          .cons ⟨pivot, hway.left, hp.typeKind.isType.whole⟩ .nil⟩
        simp [he, Graph.LeadsTo, Graph.Reaches, htr, ht.ne_nothing]
  have hf : (led ++ ps').filter (!·.isEmpty) = led.filter (!·.isEmpty) ++ ps' := by
    rw [filter_append, filter_of_fan hfan]
  have hall : Path.Fan pivot ((led ++ ps').filter (!·.isEmpty)) (ts ++ cs) :=
    hf ▸ rel_append hts hfan
  refine yields_of_gives (yields_brokenDown hs' hb hall) fun y s₂ hy => ?_
  obtain ⟨rfl, hx⟩ := assembled_of_gives hy
  exact ⟨hext, _, hway, hf ▸ hx⟩

-- When the conditions of a selection can be read back from a breakdown by some paths, which have
-- been extended to `ps'`.
def Recoverable (s : Session) (pivot target selection : Term) (ps ps' : List Path) : Prop :=
  if pivot == target then
    ps = [] ∨ ∃ p, ps = [p] ∧ (selection = .nothing ∧ s.Hides p ∨ selection.leftSides = ps')
  else if selection matches .nothing then
    ps = [] ∧ ¬s.graph.LeadsTo pivot target ∨ ∃ p, ps.getLast? = some p ∧ s.Hides p ∧
      (2 ≤ ps.length ∨ s.graph.LeadsTo pivot target)
  else ps ≠ [] ∨ s.graph.LeadsTo pivot target

theorem last_tupled_iff {ps' : List Path} (hps : ∀ p ∈ ps, Dimensional s pivot p)
    (hext : Forall₂ s.Extends ps ps') :
    (∃ p, ps'.getLast? = some p ∧ p.Tupled) ↔ ∃ p, ps.getLast? = some p ∧ s.Hides p := by
  have hlast := rel_getLast? hext
  generalize hp : ps.getLast? = p? at hlast
  generalize ps'.getLast? = p'? at hlast
  cases hlast
  case none   => simp
  case some h => simp [(drawn_of_extends (hps _ (mem_of_getLast? hp)) h).right]

theorem recovers_iff {ps' : List Path} (hps : ∀ p ∈ ps, Dimensional s pivot p)
    (hext : Forall₂ s.Extends ps ps') (hled : WayTo s pivot target led) :
    Recovers (pivot == target) selection (led ++ ps') ↔
      Recoverable s pivot target selection ps ps' := by
  have hlast := last_tupled_iff hps hext
  have hlen := hext.length_eq
  have hnil : ps' = [] ↔ ps = [] := by rw [← length_eq_zero_iff, ← hlen, length_eq_zero_iff]
  cases he : pivot == target
  case true =>
    obtain rfl := hled.none.mpr (.inl he)
    simp only [Recovers, Recoverable, he, if_true, nil_append]
    rcases hext with _ | ⟨h, _ | _⟩
    case nil       => simp
    case cons.nil q p =>
      have htupled : p.Tupled ↔ s.Hides q := by simpa using hlast
      simp [htupled]
    case cons.cons => simp
  case false =>
    have hway : led = [] ↔ ¬s.graph.LeadsTo pivot target := by simpa [he] using hled.none
    by_cases hn : selection = .nothing
    case neg =>
      have hrec : Recoverable s pivot target selection ps ps' ↔
          ps ≠ [] ∨ s.graph.LeadsTo pivot target := by
        cases selection <;> simp_all [Recoverable]
      rw [recovers_inverse_iff hn, hrec, ← not_not (a := s.graph.LeadsTo pivot target), ← hway]
      simp only [ne_eq, append_eq_nil_iff, hnil]
      tauto
    case pos =>
      subst hn
      simp only [Recovers, Recoverable, he, Bool.false_eq_true, if_false, if_true]
      by_cases hps : ps = []
      case pos =>
        obtain rfl := hnil.mpr hps
        have hfew : ¬2 ≤ led.length := by have := hled.few; omega
        simp [hps, hway, hfew]
      case neg =>
        have hps' : ps' ≠ [] := mt hnil.mp hps
        have hone : 0 < ps'.length := length_pos_iff.mpr hps'
        have hfew := hled.few
        have htwo : 2 ≤ (led ++ ps').length ↔ 2 ≤ ps.length ∨ s.graph.LeadsTo pivot target := by
          rw [← not_not (a := s.graph.LeadsTo pivot target), ← hway, ← length_eq_zero_iff,
            length_append]
          omega
        rw [htwo, getLast?_append_of_ne_nil led hps', hlast]
        simp only [append_eq_nil_iff, hps', hps, and_false, false_and, false_or]
        constructor
        · rintro ⟨h, p, hp, hh⟩
          exact ⟨p, hp, hh, h⟩
        · rintro ⟨p, hp, hh, h⟩
          exact ⟨h, p, hp, hh⟩

theorem isKind_of_isConstant (h : t.isConstant) : t.isKind := by
  cases t <;> simp [isConstant, hasClass, cls?] at h
  rfl

-- The conditions can be read back from some of the breakdowns.
theorem conditions_readBack_iff {ms : List Meaning} {es : Assoc Int Path} (hs : s₀.Faithful)
    (hp : s₀.HasObjectType pivot) (ht : s₀.HasObjectType target)
    (hes : ∀ e ∈ es, ∃ c, Restricts s₀ ms pivot e c ∧ c.isConstant)
    (hsel : (selectionOf es ms pivot).Gives s₀ selection s) (hr : r.Refers s)
    (hps : ∀ p ∈ ps, Dimensional s pivot p) :
    ∃ x ps' s', (r.breakdown pivot target selection ps .nothing).Gives s (x, ps') s' ∧
      List.Forall₂ s.Extends ps ps' ∧
      (x.selectionPaths = .ok selection.leftSides ↔
        Recoverable s pivot target selection ps ps') := by
  obtain ⟨hcond, b, hb⟩ := conditional_of_gives hs hp
    (fun e he => (hes e he).imp fun c hc => ⟨hc.left, isKind_of_isConstant hc.right⟩) hsel
  have ho : s₀.Onward s := by
    obtain ⟨s₁, hc, ho, _⟩ := collected_of_selection hs hp
      (fun e he => (hes e he).imp fun c hc => hc.left) hsel
    exact hc.onward.trans ho
  obtain ⟨⟨x, ps'⟩, s', hx, _, _, hext, led, hled, hasm⟩ := yields_breakdown_assembled
    ho.faithful.consistent hb hr (hp.later ho.later) (ht.later ho.later) hps
  have hdrawn : ∀ p ∈ led ++ ps', p.Drawn := by
    intro p hm
    rcases List.mem_append.mp hm with hm | hm
    case inl => exact hled.drawn p hm
    case inr =>
      obtain ⟨q, hq, he⟩ := exists_of_mem_right hext hm
      exact (drawn_of_extends (hps q hq) he).left
  exact ⟨x, ps', s', hx, hext, (read_iff hcond hdrawn hasm).trans (recovers_iff hps hext hled)⟩

namespace Residents

open Explanation.Towns

def menOnly : Assoc Int Path := [(1, [sex])]

def breakdowns : List Path := [toTown, [sex]]

theorem menOnly_restrict :
    ∀ e ∈ menOnly, ∃ c, Restricts residents meanings person e c ∧ c.isConstant := by
  simp only [menOnly, mem_singleton, forall_eq]
  exact ⟨man, restricts_sex, rfl⟩

def wordless : Request where
  meanings := Residents.meanings
  keywords := []

theorem breakdowns_dimensional {s : Session} : ∀ p ∈ breakdowns, Dimensional s person p := by
  have dimensional {v c : Term} {p : Path} (hv : v.isVariable) (hl : Term.Leads (v :: p) person c)
      (hk : ∀ k ∈ v :: p, k.isKind) : Dimensional s person (v :: p) := by
    refine ⟨⟨person, c, hl, person_typeKind.isType.whole, fun h ty he => ?_, fun vs hvs => ?_⟩, hk⟩
    · obtain rfl : v = .gap h ty := by simpa using he
      simp [isVariable, hasClass, cls?] at hv
    · simp [variablesFor, hv] at hvs
  simp only [breakdowns, forall_mem_cons]
  exact ⟨dimensional rfl home_leads (by decide),
    dimensional rfl (.single sex_elementKind.goes) (by decide), by simp⟩

end Residents

open Residents Explanation.Towns in
-- The condition is not found when men are counted per town and sex.
theorem men_not_readBack : residents.Faithful ∧ ∃ selection s x ps' s',
    (selectionOf menOnly wordless.meanings person).Gives residents selection s ∧
    (wordless.breakdown person person selection breakdowns .nothing).Gives s (x, ps') s' ∧
    x.selectionPaths ≠ .ok selection.leftSides := by
  have hp : residents.HasObjectType person :=
    ⟨by decide, known_kind (by simp [types, person, type, printed])⟩
  have hr {s : Session} : wordless.Refers s := by simp [Refers, wordless]
  obtain ⟨selection, s, hsel⟩ := exists_selection residents_faithful hp
    (fun e he => (menOnly_restrict e he).imp fun _ h => h.left) (List.pairwise_singleton _ _)
  obtain ⟨x, ps', s', hx, _, hiff⟩ := conditions_readBack_iff residents_faithful hp hp
    menOnly_restrict hsel hr breakdowns_dimensional
  refine ⟨residents_faithful, selection, s, x, ps', s', hsel, hx, hiff.not.mpr ?_⟩
  simp [Recoverable, breakdowns]

end Request
end Inquiry
