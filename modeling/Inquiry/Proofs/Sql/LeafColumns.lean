import Mathlib
import Inquiry.Proofs.Sql.Columns
import Inquiry.Proofs.Sql.ListComposition
import Inquiry.Proofs.Term.Leaves
import Inquiry.Proofs.Session.Knowing

/-!
The columns of compiled queries. A query has a column for each leaf of its domain and for each leaf of
its codomain, and a projection keeps only columns that are there.
-/

namespace Inquiry

open List Term Op Sql

namespace Term

-- The type is made of kinds by Cartesian products.
inductive Plain : Term → Prop
  | kind {h ty d c s} : Plain (.kind h ty d c s)
  | product {n ts ty} : ts ≠ [] → (∀ t ∈ ts, Plain t) → Plain (.app n .cartesianProduct ts ty)

theorem widths_eq (ts : List Term) : width.widths ts = (ts.map width).sum := by
  induction ts
  case nil          => rfl
  case cons t ts ih => simp [width.widths, ih]

theorem Plain.width_eq {t : Term} (h : t.Plain) : width t = t.leaves := by
  induction h
  case kind => simp [width]
  case product ih =>
    rw [width, widths_eq, leaves_cartesianProduct, map_congr_left ih]

theorem ne_nil_of_admits {op : Op} {ts : List Term} (h : op.admits ts = .ok true) : ts ≠ [] := by
  rintro rfl
  cases op <;> simp [admits] at h

theorem Formed.width_pos {K : Term → Prop} {t : Term} (h : Formed K t) : 0 < width t := by
  induction h
  case kind | gap => simp [width]
  case position t ht => cases t <;> simp [width, position?] at ht ⊢
  case app n op ts t _ ha ih =>
    obtain ⟨hadm, ty, -, rfl⟩ := apply_eq_ok.mp ha
    obtain ⟨u, ts, rfl⟩ := exists_cons_of_ne_nil (ne_nil_of_admits hadm)
    simp [width, widths_eq, ih u (by simp)]

theorem TypeKind.leaves_eq {k : Term} (h : k.TypeKind) : k.leaves = 1 := by
  obtain ⟨_, _, _, _, _, rfl, _⟩ := h
  simp

-- The kind of the division of a member of `a` by a member of `b`.
structure DivisionKind (k a b c : Term) : Prop where
  shape    : ∃ h m n s, k = .kind h
      (some (.app n .functionalType [.app m .cartesianProduct [a, b] none, c] none))
      (some (.app m .cartesianProduct [a, b] none)) (some c) s ∧
    h.cls = .operator ∧ h.name = "(/)"
  dividend : a.TypeKind
  divisor  : b.TypeKind
  target   : c.TypeKind

-- Kinds that can be told apart by their identifiers, with all that their types are made of.
structure Vocabulary (K : Term → Prop) : Prop where
  coherent : Coherent K
  whole    : ∀ k, K k → Formed K k

-- The elements that are built from stored kinds and from divisions. A projection goes from a type
-- that is made of kinds.
inductive Askable (K : Term → Prop) : Term → Prop
  | variable {k d c} : K k → k.ElementKind d c → k.isVariable → d.isObjectType → Askable K k
  | relation {k d c} : K k → k.ElementKind d c → k.isRelation → Askable K k
  | constant {k d c} : K k → k.ElementKind d c → k.isConstant → Askable K k
  | division {k a b c} : K k → k.DivisionKind a b c → Askable K k
  | projection {n ts p t} : (∀ u ∈ ts, Formed K u ∧ Plain u) →
    apply n .projection (ts ++ [p]) = .ok t → Askable K t
  | app {n op ts t} : op ≠ .projection → op.role = .element → (∀ u ∈ ts, Askable K u) →
    apply n op ts = .ok t → Askable K t

-- The types that are made of kinds by products, selections and ranges.
inductive Tabular : Term → Prop
  | kind {h ty d c s} : Tabular (.kind h ty d c s)
  | product {n ts ty} : (∀ t ∈ ts, Tabular t) → Tabular (.app n .cartesianProduct ts ty)
  | selection {n t ts ty d} : t.dom = .ok d → Tabular d → Tabular (.app n .selection (t :: ts) ty)
  | range {n t ts ty c} : t.cod = .ok c → Tabular c → Tabular (.app n .range (t :: ts) ty)

-- As above, where a projection may also go from selections and ranges, if they have as many
-- arguments as leaves.
inductive Posable (K : Term → Prop) : Term → Prop
  | variable {k d c} : K k → k.ElementKind d c → k.isVariable → d.isObjectType → Posable K k
  | relation {k d c} : K k → k.ElementKind d c → k.isRelation → Posable K k
  | constant {k d c} : K k → k.ElementKind d c → k.isConstant → Posable K k
  | division {k a b c} : K k → k.DivisionKind a b c → Posable K k
  | projection {n ts p t} : (∀ u ∈ ts, Formed K u ∧ Tabular u ∧ width u = u.leaves) →
    apply n .projection (ts ++ [p]) = .ok t → Posable K t
  | app {n op ts t} : op ≠ .projection → op.role = .element → (∀ u ∈ ts, Posable K u) →
    apply n op ts = .ok t → Posable K t

theorem Plain.tabular {t : Term} (h : t.Plain) : t.Tabular := by
  induction h
  case kind         => exact .kind
  case product _ ih => exact .product ih

theorem Askable.posable {K : Term → Prop} {t : Term} (h : Askable K t) : Posable K t := by
  induction h
  case «variable» hk he hv ho => exact .variable hk he hv ho
  case relation hk he hr      => exact .relation hk he hr
  case constant hk he hc      => exact .constant hk he hc
  case division hk hd         => exact .division hk hd
  case projection hts ha      =>
    exact .projection (fun u hu => (hts u hu).imp_right fun h => ⟨h.tabular, h.width_eq⟩) ha
  case app hp hr _ ha ih      => exact .app hp hr ih ha

theorem exists_of_projection {n : Nat} {ts : List Term} {p t : Term}
    (ha : apply n .projection (ts ++ [p]) = .ok t) : ∃ (k : Int) (i m : Nat) (c : Term),
      1 ≤ k ∧ p.position? = some k ∧ ts[k.toNat - 1]? = some c ∧
      t = .app n .projection (ts ++ [p])
        (some (.app m .functionalType [.app i .cartesianProduct ts none, c] none)) := by
  obtain ⟨hadm, m, d, c, he, rfl⟩ := apply_element rfl ha
  have hp : p.isPositionIn ts.length := by
    simp only [admits] at hadm
    split at hadm
    case isTrue => simp at hadm
    case isFalse =>
      obtain ⟨b, _, hadm⟩ := bind_eq_ok.mp hadm
      cases b <;> simp_all
  cases he
  case projection k i hk hd hc =>
    obtain ⟨-, rfl⟩ := form_eq_ok.mp hd
    simp only [getLast?_concat, Option.bind_some] at hk
    simp only [isPositionIn, hk, Bool.and_eq_true, decide_eq_true_eq] at hp
    have hl : k.toNat - 1 < ts.length := by omega
    rw [getElem?_append_left hl] at hc
    exact ⟨k, i, m, c, hp.left, hk, hc, by rw [dropLast_concat]⟩

end Term

namespace Sql

open SessionM Term

-- What an element that leads from `m` columns to `n` columns is compiled to.
inductive Compiled.Spans (m n : Nat) : Compiled → Prop
  | query {q} : q.HasColumns m n → Spans m n (.query q)
  | operator {before between} : 2 ≤ m → n = 1 → Spans m n (.operator before between)
  | projection {dims} : dims.length = n → (∀ i ∈ dims, i < m) → Spans m n (.projection dims m)

namespace Compiled

variable {m n k : Nat} {c l r : Compiled} {cs : List Compiled}

theorem safe_asQuery (h : c.Spans m n) : c.asQuery.Safe fun q => q.HasColumns m n := by
  cases h
  case query h => exact safe_pure h
  all_goals exact safe_throw (by simp)

theorem safe_freezeGrouped (sw : Switches) (h : c.Spans m n) :
    (freezeGrouped sw c).Safe (Spans m n) := by
  cases h
  case query h =>
    simp only [freezeGrouped]
    split
    · exact (Query.safe_freeze h).map fun _ h => .query h
    · exact safe_pure (.query h)
  case operator h h' => exact safe_pure (.operator h h')
  case projection h h' => exact safe_pure (.projection h h')

end Compiled

open Compiled

variable {m n k : Nat}

theorem safe_pickColumns {q : Query} {dims : List Nat} (h : q.HasColumns m k)
    (hd : ∀ i ∈ dims, i < k) : (pickColumns dims q).Safe fun q => q.HasColumns m dims.length := by
  have hg : (dims.mapM fun i => get q.codomain i).Safe fun is => is.length = dims.length := by
    refine (safe_mapM (R := fun _ _ => True) fun i hi => ?_).imp fun _ h => h.length_eq.symm
    exact (safe_get (h.codomain ▸ hd i hi)).imp fun _ _ => trivial
  refine hg.bind fun is his => (safe_ofExcept (bounded_mapM Item.bounded_asName)).bind fun _ _ => ?_
  split
  all_goals exact safe_pure ⟨h.domain, his⟩

theorem bounded_isKey (i : Item) : Bounded (fun _ => True) (isKey i) :=
  i.bounded_name.bind fun _ _ => by
    split
    · trivial
    · exact i.bounded_asName.bind fun _ _ => trivial

theorem safe_applyOperator {q : Query} (before between : String) (h : q.HasColumns m k) (hk : 2 ≤ k) :
    (applyOperator before between q).Safe fun q => q.HasColumns m 1 := by
  refine (Item.safe_copies q.codomain).bind fun args ha => ?_
  rw [h.codomain] at ha
  have hp : (do return { q with codomain := [.expr (← newPart) args "" before between] } :
      SessionM Query).Safe fun q => q.HasColumns m 1 :=
    safe_newPart.bind fun _ _ => safe_pure ⟨h.domain, rfl⟩
  split
  case isFalse => exact hp
  case isTrue =>
    refine (safe_get (by omega)).bind fun first _ => ?_
    refine (safe_ofExcept (bounded_isKey first)).bind fun isKey _ => ?_
    split
    · exact safe_newPart.bind fun _ _ => safe_pure ⟨h.domain, rfl⟩
    · refine (safe_get (by omega)).bind fun second _ => ?_
      refine (safe_ofExcept (bounded_isKey second)).bind fun isKey _ => ?_
      split
      · exact safe_newPart.bind fun _ _ => safe_pure ⟨h.domain, rfl⟩
      · exact hp

theorem safe_composeOne {lhs rhs : Query} (hl : lhs.HasColumns 1 n) (hr : rhs.HasColumns m 1) :
    (composeOne lhs rhs).Safe fun q => q.HasColumns m n := by
  rw [composeOne]
  cases lhs.source
  case none => exact safe_throw (by simp)
  case some source =>
    dsimp only
    have hq (joins : List Join) {codomain : List Item} (hc : codomain.length = n) :
        (Query.create
          { domain := rhs.domain, codomain, source := rhs.source, joins,
            wheres := lhs.wheres ++ rhs.wheres, orderBy := (outerOrder lhs rhs).1,
            orderDir := (outerOrder lhs rhs).2 }
          (rhs.frozen ++ lhs.frozen)).Safe fun q => q.HasColumns m n :=
      Query.safe_create _ ⟨hr.domain, hc⟩
    have hj (asName : String) : Safe (ofExcept (lhs.joins.mapM (Join.renameAlias source.table asName)))
        fun js => js.length = lhs.joins.length :=
      safe_ofExcept (bounded_mapM fun j => j.bounded_renameAlias source.table asName)
    have hc (asName : String) := safe_ofExcept (bounded_renameTables source.table asName lhs.codomain)
    split
    case isTrue => exact hq rhs.joins hl.codomain
    case isFalse =>
      refine (safe_get (by simp [hr.codomain])).bind fun _ _ => (Item.safe_bare _).bind fun cod _ => ?_
      refine (safe_get (by simp [hl.domain])).bind fun _ _ => (Item.safe_bare _).bind fun dom _ => ?_
      refine (safe_ofExcept cod.bounded_table).bind fun table _ => ?_
      refine (safe_ofExcept cod.bounded_text).bind fun _ _ => ?_
      refine (safe_ofExcept dom.bounded_text).bind fun _ _ => ?_
      simp only [pure_bind]
      split
      · exact (hj _).bind fun _ _ => (hc _).bind fun _ h => hq _ (h.trans hl.codomain)
      split
      · exact (Join.safe_create _ _ _).bind fun join _ => (hj _).bind fun _ _ =>
          (hc _).bind fun _ h => hq _ (h.trans hl.codomain)
      · refine (safe_ofExcept cod.bounded_name).bind fun name _ => ?_
        exact (Join.safe_create _ _ _).bind fun join _ => (hj _).bind fun _ _ =>
          (hc _).bind fun _ h => hq _ (h.trans hl.codomain)

theorem safe_composeMany {lhs rhs : Query} (hl : lhs.HasColumns k n) (hr : rhs.HasColumns m k) :
    (composeMany lhs rhs).Safe fun q => q.HasColumns m n := by
  refine (Query.safe_freeze hl).bind fun lhs hl => (Query.safe_freeze hr).bind fun rhs hr => ?_
  refine (safe_mapM_length fun p => ?_).bind fun pairs _ => ?_
  · exact p.1.safe_bare.bind fun _ _ => p.2.safe_bare.bind fun _ _ => safe_pure trivial
  · cases lhs.source
    case none => exact safe_throw (by simp)
    case some source =>
      refine (Join.safe_create _ _ _).bind fun join _ => ?_
      exact Query.safe_create _ ⟨hr.domain, hl.codomain⟩

theorem safe_composeTwo {l r : Compiled} (hl : l.Spans k n) (hr : r.Spans m k) :
    (composeTwo l r).Safe (Spans m n) := by
  cases hr
  case projection => exact safe_throw (by simp)
  all_goals cases hl
  case query.query q hr p hl =>
    change (SessionM.Safe (if _ then _ else _) _)
    split
    case isTrue h =>
      obtain rfl : 1 = k := (beq_iff_eq.mp h).symm.trans hl.domain
      exact (safe_composeOne hl hr).map fun _ h => .query h
    case isFalse => exact (safe_composeMany hl hr).map fun _ h => .query h
  case query.operator q hr _ _ hk hn =>
    subst hn
    exact (safe_applyOperator _ _ hr hk).map fun _ h => .query h
  case query.projection q hr dims hn hd =>
    subst hn
    exact (safe_pickColumns hr hd).map fun _ h => .query h
  case operator.query hr hk p hl =>
    change (SessionM.Safe (if _ then _ else _) _)
    split
    all_goals exact safe_throw (by simp)
  all_goals exact safe_throw (by simp)

-- The compiled elements, the last one first, lead from `m` columns to `n` columns.
inductive Chained : List Compiled → Nat → Nat → Prop
  | single {c m n} : c.Spans m n → Chained [c] m n
  | cons {c cs m n k} : c.Spans k n → Chained cs m k → Chained (c :: cs) m n

theorem Chained.ne_nil {cs : List Compiled} (h : Chained cs m n) : cs ≠ [] := by
  cases h <;> simp

theorem Chained.safe_compose {cs : List Compiled} (h : Chained cs m n) :
    (compose cs).Safe (Spans m n) := by
  induction h
  case single hc => exact safe_pure hc
  case cons hc hcs ih =>
    rw [compose_cons hcs.ne_nil]
    exact ih.bind fun _ hr => safe_composeTwo hc hr

variable {sw : Switches} {cs : List Compiled} {ns : List Nat}

theorem safe_mapM_freezeGrouped (h : Forall₂ (Spans m) ns cs) :
    (cs.mapM (freezeGrouped sw)).Safe (Forall₂ (Spans m) ns) :=
  safe_mapM_forall₂ h fun _ _ hc => safe_freezeGrouped sw hc

theorem safe_mapM_asQuery (h : Forall₂ (Spans m) ns cs) :
    (cs.mapM Compiled.asQuery).Safe (Forall₂ (fun n (q : Query) => q.HasColumns m n) ns) :=
  safe_mapM_forall₂ h fun _ _ hc => safe_asQuery hc

theorem safe_joinDomains (first : List Item) (joins : List (String × List (Item × Item))) (q : Query) :
    (joinDomains first joins q).Safe fun _ => True := by
  refine safe_foldlM trivial fun joins p _ => ?_
  refine (safe_ofExcept p.1.bounded_table).bind fun t _ => ?_
  refine (safe_ofExcept p.2.bounded_table).bind fun t' _ => ?_
  split
  · exact safe_pure trivial
  · exact p.2.safe_bare.bind fun _ _ => p.1.safe_bare.bind fun _ _ => safe_pure trivial

theorem length_flatMap_codomain {qs : List Query}
    (h : Forall₂ (fun n (q : Query) => q.HasColumns m n) ns qs) :
    (qs.flatMap (·.codomain)).length = ns.sum := by
  induction h
  case nil => rfl
  case cons hq _ ih => simp [ih, hq.codomain]

theorem safe_dims (h : Forall₂ (Spans m) ns cs) :
    (cs.mapM fun
      | .projection dims _ => pure dims
      | _                  => throw .mixedProjections : SessionM (List (List Nat))).Safe
      fun ds => ds.flatten.length = ns.sum ∧ ∀ i ∈ ds.flatten, i < m := by
  induction h
  case nil => exact safe_pure (by simp)
  case cons hc _ ih =>
    rw [mapM_cons]
    cases hc
    case projection hn hd =>
      refine ih.bind fun ds ⟨hl, hds⟩ => safe_pure ⟨by simp [hn, hl], fun i hi => ?_⟩
      rw [flatten_cons, mem_append] at hi
      exact hi.elim (hd i) (hds i)
    all_goals exact safe_throw (by simp)

theorem safe_query {b : Body} (frozen : List Frozen) (h : b.HasColumns m n) :
    (Compiled.query <$> Query.create b frozen).Safe (Spans m n) :=
  (Query.safe_create frozen h).map fun _ h => .query h

theorem safe_compileProduct (h : Forall₂ (Spans m) ns cs) (hn : ns ≠ []) :
    (compileProduct sw cs).Safe (Spans m ns.sum) := by
  have hcs := h
  cases h
  case nil => simp at hn
  case cons hc _ =>
    cases hc
    case projection =>
      exact (safe_dims hcs).bind fun ds ⟨hl, hds⟩ => safe_pure (.projection hl hds)
    all_goals
      refine (safe_mapM_freezeGrouped hcs).bind fun cs hcs => ?_
      refine (safe_mapM_asQuery hcs).bind fun qs hqs => ?_
      refine (safe_get (by simp [← hqs.length_eq])).bind fun first hf => ?_
      have ⟨_, _, hf⟩ := exists_of_mem_right hqs hf
      refine (safe_foldlM trivial fun _ _ _ => safe_joinDomains _ _ _).bind fun new _ => ?_
      refine (safe_mapM_length fun _ => Join.safe_create _ _ _).bind fun joins _ => ?_
      exact safe_query _ ⟨hf.domain, length_flatMap_codomain hqs⟩

theorem safe_pairConds (qs : List Query) : (pairConds qs).Safe fun _ => True := by
  fun_induction pairConds qs
  case case1 ih =>
    refine (safe_mapM_length fun _ => ?_).bind fun _ _ => ih.bind fun _ _ => safe_pure trivial
    exact safe_newPart.bind fun _ _ => safe_pure trivial
  case case2 => exact safe_pure trivial

theorem safe_compileInclusion (h : Forall₂ (Spans m) ns cs) (hn : ns ≠ []) (hm : 0 < m) :
    (compileInclusion sw cs).Safe (Spans m m) := by
  refine (safe_mapM_freezeGrouped h).bind fun cs hcs => (safe_mapM_asQuery hcs).bind fun qs hqs => ?_
  have hl : 0 < qs.length := hqs.length_eq ▸ length_pos_iff.mpr hn
  refine (safe_get hl).bind fun first hf => ?_
  have ⟨_, _, hf⟩ := exists_of_mem_right hqs hf
  refine Safe.bind (P := fun _ => True) ?_ fun joins _ => ?_
  · refine (safe_mapM (R := fun _ _ => True) fun q hq => ?_).imp fun _ _ => trivial
    have ⟨_, _, hq⟩ := exists_of_mem_right hqs (mem_of_mem_tail hq)
    refine (safe_get (hq.domain ▸ hm)).bind fun dim _ => (safe_get (hf.domain ▸ hm)).bind fun own _ => ?_
    refine (safe_ofExcept dim.bounded_table).bind fun t _ => ?_
    refine (safe_ofExcept own.bounded_table).bind fun t' _ => ?_
    split
    · exact safe_pure trivial
    · exact own.safe_bare.bind fun _ _ => dim.safe_bare.bind fun _ _ =>
        (Join.safe_create _ _ _).bind fun _ _ => safe_pure trivial
  · refine (Item.safe_copies _).bind fun codomain hc => (safe_pairConds qs).bind fun conds _ => ?_
    exact safe_query _ ⟨hf.domain, hc.trans hf.domain⟩

theorem safe_compileInverse {c : Compiled} (h : c.Spans m n) :
    (compileInverse sw [c]).Safe (Spans n n) := by
  have hs : Forall₂ (Spans m) [n] [c] := .cons h .nil
  refine (safe_mapM_freezeGrouped hs).bind fun cs hcs => ?_
  refine (safe_get (by simp [← hcs.length_eq])).bind fun c hc => ?_
  have ⟨k, hk, hc⟩ := exists_of_mem_right hcs hc
  obtain rfl := mem_singleton.mp hk
  refine (safe_asQuery hc).bind fun q hq => ?_
  refine (Item.safe_copies _).bind fun domain hd => (Item.safe_copies _).bind fun codomain hc => ?_
  exact safe_query _ ⟨hd.trans hq.codomain, hc.trans hq.codomain⟩

theorem safe_compileAggregation {v w : Compiled} (hv : v.Spans m n) (hw : w.Spans m k) (hm : 0 < m) :
    (compileAggregation sw [v, w]).Safe (Spans k n) := by
  simp only [compileAggregation, mapM_cons, mapM_nil, bind_assoc, pure_bind]
  refine (safe_freezeGrouped sw hv).bind fun v hv => (safe_freezeGrouped sw hw).bind fun w hw => ?_
  refine Safe.bind (P := (· = w)) (safe_ofExcept rfl) ?_
  rintro _ rfl
  refine (safe_asQuery hw).bind fun q hq => ?_
  refine Safe.bind (P := (· = v)) (safe_ofExcept rfl) ?_
  rintro _ rfl
  refine (safe_asQuery hv).bind fun p hp => ?_
  refine (safe_get (hp.domain ▸ hm)).bind fun dim _ => ?_
  refine (safe_ofExcept dim.bounded_table).bind fun table _ => ?_
  have rest (joins : List Join) : (do
      let codomain ← p.codomain.mapM fun i => do
        let col ← i.bare
        return Item.expr (← newPart) [col] (i.asName?.getD "") "SUM" "%s"
      let grouped ← ofExcept (q.codomain.filterM fun i => return !(← i.table).isEmpty)
      let columns ← grouped.mapM Item.bare
      Compiled.query <$> Query.create
        { domain := q.codomain, codomain, source := q.source, joins := joins ++ p.joins ++ q.joins,
          wheres := p.wheres ++ q.wheres, groups := if columns.isEmpty then .whole else .by columns,
          orderBy := p.orderBy, orderDir := p.orderDir }
        (p.frozen ++ q.frozen) : SessionM Compiled).Safe (Spans k n) := by
    refine (safe_mapM_length fun i => ?_).bind fun codomain hc => ?_
    · exact i.safe_bare.bind fun _ _ => safe_newPart.bind fun _ _ => safe_pure trivial
    refine Safe.bind (P := fun _ => True) (safe_ofExcept ?_) fun grouped _ => ?_
    · exact Bounded.filterM fun i => i.bounded_table.bind fun _ _ => trivial
    refine (safe_mapM_length Item.safe_bare).bind fun columns _ => ?_
    exact safe_query _ ⟨hq.codomain, hc.trans hp.codomain⟩
  split
  · exact rest []
  · refine (safe_get (hq.domain ▸ hm)).bind fun dim' _ => ?_
    refine (safe_ofExcept dim'.bounded_table).bind fun table' _ => ?_
    split
    · exact rest []
    · exact dim.safe_bare.bind fun _ _ => dim'.safe_bare.bind fun _ _ =>
        (Join.safe_create _ _ _).bind fun join _ => rest [join]

-- The columns that are kept so far and the number of those that were passed, after another type.
def pickStep (k : Int) (acc : Option (List Nat) × Nat) (t : Term × Nat) : Option (List Nat) × Nat :=
  (if (t.2 : Int) == k - 1 then some ((List.range (width t.1)).map (acc.2 + ·)) else acc.1,
    acc.2 + width t.1)

variable {types : List Term} {t : Term} {k : Int} {i j : Nat} {acc : Option (List Nat) × Nat}

theorem foldl_pickStep_of_lt (h : k - 1 < i) :
    (types.zipIdx i).foldl (pickStep k) acc = (acc.1, acc.2 + (types.map width).sum) := by
  induction types generalizing i acc
  case nil => rfl
  case cons t types ih =>
    have hne : ¬(i : Int) = k - 1 := by omega
    simp [ih (i := i + 1) (by push_cast; omega), pickStep, hne, Nat.add_assoc]

theorem foldl_pickStep (h : k - 1 = i + j) (ht : types[j]? = some t) :
    (types.zipIdx i).foldl (pickStep k) acc =
      (some ((List.range (width t)).map (acc.2 + ((types.take j).map width).sum + ·)),
        acc.2 + (types.map width).sum) := by
  induction types generalizing i j acc
  case nil => simp at ht
  case cons u types ih =>
    cases j
    case zero =>
      obtain rfl : u = t := by simpa using ht
      have hlt : k - 1 < (i + 1 : Nat) := by push_cast; omega
      simp [foldl_pickStep_of_lt hlt, pickStep, h, Nat.add_assoc]
    case succ j =>
      have hj : k - 1 = (i + 1 : Nat) + j := by push_cast at h ⊢; omega
      simp [ih hj (by simpa using ht), pickStep, Nat.add_assoc]

theorem spans_projectionColumns {j : Nat} (ht : types[j]? = some t) :
    ∃ dims, projectionColumns types (j + 1) = (some dims, (types.map width).sum) ∧
      dims.length = width t ∧ ∀ i ∈ dims, i < (types.map width).sum := by
  have h : projectionColumns types (j + 1)
      = (some ((List.range (width t)).map (0 + ((types.take j).map width).sum + ·)),
          0 + (types.map width).sum) :=
    foldl_pickStep (i := 0) (by simp) ht
  simp only [Nat.zero_add] at h
  refine ⟨_, h, by simp, ?_⟩
  obtain ⟨hj, rfl⟩ := List.getElem?_eq_some_iff.mp ht
  have hs : (types.map width).sum = ((types.take j).map width).sum
      + (width types[j] + ((types.drop (j + 1)).map width).sum) := by
    conv_lhs => rw [← take_append_drop j types, drop_eq_getElem_cons hj]
    simp only [map_append, map_cons, sum_append, sum_cons]
  simp only [mem_map, mem_range]
  rintro i ⟨r, hr, rfl⟩
  omega

theorem safe_compileProjection {args : List Term} {k : Int}
    (hk : args.getLast?.bind position? = some k)
    (ht : args.dropLast[k.toNat - 1]? = some t) (h1 : 1 ≤ k) :
    (compileProjection args).Safe (Spans (args.dropLast.map width).sum (width t)) := by
  obtain ⟨j, rfl⟩ : ∃ j : Nat, k = j + 1 := ⟨k.toNat - 1, by omega⟩
  replace ht : args.dropLast[j]? = some t := by simpa using ht
  have ⟨dims, hp, hl, hd⟩ := spans_projectionColumns ht
  simp only [compileProjection, hk, hp]
  exact safe_pure (.projection hl hd)

theorem safe_storedColumn (table column asName : String) (orderBy : Option String) (orderDir : String) :
    (storedColumn table column asName orderBy orderDir).Safe fun q => q.HasColumns 1 1 :=
  (Item.safe_create _ _ _).bind fun _ _ => (Item.safe_create _ _ _).bind fun _ _ =>
    safe_newPart.bind fun _ _ => Query.safe_create _ ⟨rfl, rfl⟩

theorem safe_compileConstant (h : KindHead) : (compileConstant h).Safe fun q => q.HasColumns 1 1 := by
  rw [compileConstant]
  cases h.code
  case none => exact safe_throw (by simp)
  case some code =>
    exact (Item.safe_create _ _ _).bind fun _ _ => (Item.safe_create _ _ _).bind fun _ _ =>
      safe_newPart.bind fun _ _ => Query.safe_create _ ⟨rfl, rfl⟩

theorem safe_compileImmediate (r : Setting) {d : Term} (value : String) (isKey : Bool)
    (hd : t.domain? = .ok (some d)) (ho : d.isObjectType) :
    (compileImmediate r t value isKey).Safe fun q => q.HasColumns 1 1 := by
  cases d <;> simp [isObjectType, hasClass, cls?] at ho
  case kind h _ _ _ _ =>
    rw [compileImmediate, hd]
    refine Safe.bind (P := (· = some _)) (safe_ofExcept rfl) ?_
    rintro _ rfl
    simp only [ho, beq_self_eq_true, if_true, pure_bind]
    exact (Item.safe_create _ _ _).bind fun _ _ => safe_newPart.bind fun _ _ =>
      (Item.safe_create _ _ _).bind fun _ _ => Query.safe_create _ ⟨rfl, rfl⟩

theorem safe_compileVariable (r : Setting) {k d c : Term} {h : KindHead} (hk : k.ElementKind d c)
    (ho : d.isObjectType) : (compileVariable r k h).Safe fun q => q.HasColumns 1 1 := by
  have ⟨h', n, s, he, hel⟩ := hk.shape
  have hd : k.domain? = .ok (some d) := by simp [he, domain?, hel]
  have hc : k.codomain = .ok c := by simp [he, codomain, codomain?, hel]
  obtain ⟨_, _, _, _, _, rfl, _⟩ := hk.target
  rw [compileVariable, hc]
  refine Safe.bind (P := fun _ => True) (safe_ofExcept trivial) fun codName _ => ?_
  split
  · exact safe_compileImmediate r _ _ hd ho
  split
  · exact safe_compileImmediate r _ _ hd ho
  · exact safe_storedColumn _ _ _ _ _

theorem safe_compileKind (r : Setting) {k d c : Term} (hk : k.ElementKind d c)
    (h : k.isVariable ∧ d.isObjectType ∨ k.isRelation ∨ k.isConstant) :
    (compileTerm r k).Safe (Spans 1 1) := by
  obtain ⟨h', n, s, he, _⟩ := hk.shape
  have hv := safe_compileVariable r (h := h') hk
  subst he
  simp only [compileTerm, compileKind]
  simp only [isVariable, isRelation, isConstant, hasClass, cls?] at h
  split
  · exact (hv (by simp_all [KindClass.isRelation])).map fun _ h => .query h
  split
  · exact (safe_storedColumn _ _ _ _ _).map fun _ h => .query h
  split
  · exact (safe_compileConstant _).map fun _ h => .query h
  · simp_all

-- What an element is compiled to has a column for each leaf of its ends.
def SpansEnds (t : Term) (c : Compiled) : Prop :=
  ∃ d e, t.dom = .ok d ∧ t.cod = .ok e ∧ c.Spans d.leaves e.leaves

theorem SpansEnds.spans {t d e : Term} {c : Compiled} (h : SpansEnds t c) (hd : t.dom = .ok d)
    (he : t.cod = .ok e) : c.Spans d.leaves e.leaves := by
  obtain ⟨d', e', hd', he', h⟩ := h
  obtain rfl := Except.ok.inj (hd'.symm.trans hd)
  obtain rfl := Except.ok.inj (he'.symm.trans he)
  exact h

theorem SpansEnds.safe_freezeGrouped {t : Term} {c : Compiled} (sw : Switches) (h : SpansEnds t c) :
    (freezeGrouped sw c).Safe (SpansEnds t) := by
  have ⟨d, e, hd, he, h⟩ := h
  exact (Compiled.safe_freezeGrouped sw h).imp fun _ h => ⟨d, e, hd, he, h⟩

theorem safe_compileAll (r : Setting) {ts : List Term} {R : Term → Compiled → Prop}
    (h : ∀ t ∈ ts, (compileTerm r t).Safe (R t)) :
    (compileTerm.compileAll r ts).Safe (Forall₂ R ts) := by
  induction ts
  case nil => exact safe_pure .nil
  case cons t ts ih =>
    have ⟨ht, hts⟩ := forall_mem_cons.mp h
    exact ht.bind fun c hc => (ih hts).bind fun cs hcs => safe_pure (.cons hc hcs)

-- What is known of an element from `d` to `c` that queries can be made of.
structure Compiles (K : Term → Prop) (r : Setting) (t d c : Term) : Prop where
  formed : Formed K t
  dom    : t.dom = .ok d
  cod    : t.cod = .ok c
  source : 0 < d.leaves
  target : 0 < c.leaves
  safe   : (compileTerm r t).Safe (Spans d.leaves c.leaves)

variable {K : Term → Prop} {r : Setting} {t u d c : Term} {ts : List Term}

namespace Compiles

theorem formed_dom (h : Compiles K r t d c) : Formed K d :=
  Formed.typeArg (fun _ hty => h.formed.type hty) h.dom

theorem formed_cod (h : Compiles K r t d c) : Formed K c :=
  Formed.typeArg (fun _ hty => h.formed.type hty) h.cod

theorem spansEnds (h : Compiles K r t d c) : (compileTerm r t).Safe (SpansEnds t) :=
  h.safe.imp fun _ hc => ⟨d, c, h.dom, h.cod, hc⟩

end Compiles

theorem Chained.of_consecutive {cs : List Compiled} (hK : Coherent K)
    (h : ∀ t ∈ ts, ∃ d c, Compiles K r t d c) (hs : Forall₂ SpansEnds ts cs)
    (hc : consecutive ts = .ok true) (ht : ts.head? = some t) (hu : ts.getLast? = some u)
    (hd : u.dom = .ok d) (hcod : t.cod = .ok c) : Chained cs d.leaves c.leaves := by
  induction hs generalizing t c
  case nil => simp at ht
  case cons t' c' ts cs hs hrest ih =>
    obtain rfl : t' = t := by simpa using ht
    cases hrest
    case nil =>
      obtain rfl : t' = u := by simpa using hu
      exact .single (hs.spans hd hcod)
    case cons v c'' ts cs hs' hrest =>
      obtain ⟨d', hd', hrest⟩ := bind_eq_ok.mp hc
      obtain ⟨e, he, hnext⟩ := bind_eq_ok.mp hrest
      split at hnext
      case isFalse => simp at hnext
      case isTrue heq =>
        have ⟨_, _, ht'⟩ := h t' (by simp)
        have ⟨_, _, hv⟩ := h v (by simp)
        obtain rfl := Except.ok.inj (ht'.dom.symm.trans hd')
        obtain rfl := Except.ok.inj (hv.cod.symm.trans he)
        have hl := Twins.leaves_eq hK ⟨ht'.formed_dom, hv.formed_cod, heq⟩
        refine .cons (hs.spans hd' hcod) (hl ▸ ?_)
        exact ih (fun t ht => h t (mem_cons_of_mem _ ht)) hnext rfl (by simpa using hu) he

theorem dom_equals_of_commonDomain {d' : Term} (h : commonDomain (t :: ts) = .ok true)
    (ht : t.dom = .ok d) (hu : u ∈ t :: ts) (hd : u.dom = .ok d') : d'.equals d := by
  simp only [commonDomain, ht, ok_bind] at h
  have h := allM_eq_true h u hu
  obtain ⟨b, _, h⟩ := bind_eq_ok.mp h
  cases b <;> simp_all

theorem spans_of_commonDomain {cs : List Compiled} {es : List Term} (hK : Coherent K)
    (h : ∀ u ∈ t :: ts, ∃ d c, Compiles K r u d c) (hs : Forall₂ SpansEnds (t :: ts) cs)
    (hc : commonDomain (t :: ts) = .ok true) (hd : t.dom = .ok d)
    (he : Forall₂ (fun t e => t.cod = .ok e) (t :: ts) es) :
    Forall₂ (Spans d.leaves) (es.map leaves) cs := by
  have ⟨_, _, ht⟩ := h t (by simp)
  obtain rfl := Except.ok.inj (ht.dom.symm.trans hd)
  rw [forall₂_map_left_iff, forall₂_iff_get]
  have ⟨hl, hs⟩ := forall₂_iff_get.mp hs
  have ⟨hl', he⟩ := forall₂_iff_get.mp he
  refine ⟨hl'.symm.trans hl, fun i hi hj => ?_⟩
  have hm := get_mem (t :: ts) ⟨i, hl ▸ hj⟩
  have ⟨d', c', hu⟩ := h _ hm
  have heq := dom_equals_of_commonDomain hc hd hm hu.dom
  have hle := Twins.leaves_eq hK ⟨hu.formed_dom, ht.formed_dom, heq⟩
  rw [← hle]
  exact (hs i (hl ▸ hj) hj).spans hu.dom (he i (hl ▸ hj) hi)

namespace Compiles

variable {n : Nat} {op : Op} {ty : Option Term} (hK : Coherent K)
  (h : ∀ t ∈ ts, ∃ d c, Compiles K r t d c)

include h in
theorem forall₂_cod : ∃ es, Forall₂ (fun t e => t.cod = .ok e) ts es := by
  induction ts
  case nil => exact ⟨[], .nil⟩
  case cons t ts ih =>
    have ⟨⟨_, c, ht⟩, hts⟩ := forall_mem_cons.mp h
    have ⟨es, hes⟩ := ih hts
    exact ⟨c :: es, .cons ht.cod hes⟩

include h in
theorem safe_all : (compileTerm.compileAll r ts).Safe (Forall₂ SpansEnds ts) :=
  safe_compileAll r fun t ht => have ⟨_, _, h⟩ := h t ht; h.spansEnds

include hK h in
theorem composition (ha : composition.admits ts = .ok true) (he : EndsOf .composition ts d c) :
    (compileTerm r (.app n .composition ts ty)).Safe (Spans d.leaves c.leaves) ∧
      0 < d.leaves ∧ 0 < c.leaves := by
  cases he
  case composition t u ht hu hd hc =>
  have hcons : consecutive ts = .ok true := by
    simp only [admits] at ha
    split at ha
    case isTrue => simp at ha
    case isFalse =>
      obtain ⟨b, _, ha⟩ := bind_eq_ok.mp ha
      cases b <;> simp_all
  obtain ⟨_, _, ht'⟩ := h t (mem_of_head? ht)
  obtain ⟨_, _, hu'⟩ := h u (mem_of_getLast? hu)
  obtain rfl := Except.ok.inj (ht'.cod.symm.trans hc)
  obtain rfl := Except.ok.inj (hu'.dom.symm.trans hd)
  refine ⟨(safe_all h).bind fun cs hcs => ?_, hu'.source, ht'.target⟩
  have hf := safe_mapM_forall₂ hcs fun _ _ hc => hc.safe_freezeGrouped r.switches
  exact hf.bind fun cs hcs => (Chained.of_consecutive hK h hcs hcons ht hu hd hc).safe_compose

theorem commonDomain_of_product (ha : product.admits ts = .ok true) :
    commonDomain ts = .ok true := by
  simp only [admits] at ha
  split at ha
  case isTrue  => simp at ha
  case isFalse => exact ha

theorem commonDomain_of_inclusion (ha : inclusion.admits ts = .ok true) :
    commonDomain ts = .ok true := by
  simp only [admits] at ha
  split at ha
  case isTrue => simp at ha
  case isFalse =>
    obtain ⟨b, _, ha⟩ := bind_eq_ok.mp ha
    cases b <;> simp_all

include hK h in
theorem product (ha : product.admits ts = .ok true) (he : EndsOf .product ts d c) :
    (compileTerm r (.app n .product ts ty)).Safe (Spans d.leaves c.leaves) ∧
      0 < d.leaves ∧ 0 < c.leaves := by
  have hcom := commonDomain_of_product ha
  cases he
  case product t ts es i hes hd hc =>
    have hes := mapM_eq_ok.mp hes
    obtain ⟨-, rfl⟩ := form_eq_ok.mp hc
    obtain ⟨e, es, he, _, rfl⟩ := forall₂_cons_left_iff.mp hes
    have ⟨d', e', ht⟩ := h t (by simp)
    obtain rfl := Except.ok.inj (ht.dom.symm.trans hd)
    obtain rfl := Except.ok.inj (ht.cod.symm.trans he)
    refine ⟨?_, ht.source, by simp [ht.target]⟩
    rw [leaves_cartesianProduct]
    exact (safe_all h).bind fun cs hcs =>
      safe_compileProduct (spans_of_commonDomain hK h hcs hcom hd hes) (by simp)

include hK h in
theorem inclusion (ha : inclusion.admits ts = .ok true) (he : EndsOf .inclusion ts d c) :
    (compileTerm r (.app n .inclusion ts ty)).Safe (Spans d.leaves c.leaves) ∧
      0 < d.leaves ∧ 0 < c.leaves := by
  have hcom := commonDomain_of_inclusion ha
  cases he
  case inclusion t ts i hd hc =>
    obtain ⟨-, rfl⟩ := form_eq_ok.mp hd
    have ⟨d', e', ht⟩ := h t (by simp)
    obtain rfl := Except.ok.inj (ht.dom.symm.trans hc)
    rw [leaves_selection ht.dom]
    have ⟨es, hes⟩ := forall₂_cod h
    refine ⟨(safe_all h).bind fun cs hcs => ?_, ht.source, ht.source⟩
    refine safe_compileInclusion (spans_of_commonDomain hK h hcs hcom hc hes) ?_ ht.source
    cases hes
    simp

include h in
theorem inverse (ha : inverse.admits ts = .ok true) (he : EndsOf .inverse ts d c) :
    (compileTerm r (.app n .inverse ts ty)).Safe (Spans d.leaves c.leaves) ∧
      0 < d.leaves ∧ 0 < c.leaves := by
  cases he
  case inverse t ts i hd hc =>
    obtain rfl : ts = [] := by
      cases ts
      case nil  => rfl
      case cons => simp [admits] at ha
    obtain ⟨-, rfl⟩ := form_eq_ok.mp hd
    obtain ⟨d', e', ht⟩ := h t (by simp)
    obtain rfl := Except.ok.inj (ht.cod.symm.trans hc)
    rw [leaves_range ht.cod]
    refine ⟨(safe_all h).bind fun cs hcs => ?_, ht.target, ht.target⟩
    obtain ⟨c, cs, hc, hnil, rfl⟩ := forall₂_cons_left_iff.mp hcs
    obtain rfl := forall₂_nil_left_iff.mp hnil
    exact safe_compileInverse (hc.spans ht.dom ht.cod)

include hK h in
theorem aggregation (ha : aggregation.admits ts = .ok true) (he : EndsOf .aggregation ts d c) :
    (compileTerm r (.app n .aggregation ts ty)).Safe (Spans d.leaves c.leaves) ∧
      0 < d.leaves ∧ 0 < c.leaves := by
  cases he
  case aggregation v w ts hd hc =>
    obtain rfl : ts = [] := by
      cases ts
      case nil  => rfl
      case cons => simp [admits] at ha
    obtain ⟨dv, cv, hv⟩ := h v (by simp)
    obtain ⟨dw, cw, hw⟩ := h w (by simp)
    obtain rfl := Except.ok.inj (hw.cod.symm.trans hd)
    obtain rfl := Except.ok.inj (hv.cod.symm.trans hc)
    have heq : dv.equals dw := by
      simp only [admits] at ha
      obtain ⟨b, _, ha⟩ := bind_eq_ok.mp ha
      cases b <;> simp_all [hv.dom, hw.dom]
    have hl := Twins.leaves_eq hK ⟨hv.formed_dom, hw.formed_dom, heq⟩
    refine ⟨(safe_all h).bind fun cs hcs => ?_, hw.target, hv.target⟩
    obtain ⟨cv, cs, hcv, hrest, rfl⟩ := forall₂_cons_left_iff.mp hcs
    obtain ⟨cw, cs, hcw, hnil, rfl⟩ := forall₂_cons_left_iff.mp hrest
    obtain rfl := forall₂_nil_left_iff.mp hnil
    exact safe_compileAggregation (hcv.spans hv.dom hv.cod) (hl ▸ hcw.spans hw.dom hw.cod) hv.source

end Compiles

theorem compiles_kind (hK : Vocabulary K) {k : Term} (hk : K k) (he : k.ElementKind d c)
    (h : k.isVariable ∧ d.isObjectType ∨ k.isRelation ∨ k.isConstant) :
    Compiles K r k d c where
  formed := hK.whole k hk
  dom    := he.goes.dom
  cod    := he.goes.cod
  source := by simp [he.source.leaves_eq]
  target := by simp [he.target.leaves_eq]
  safe   := by
    rw [he.source.leaves_eq, he.target.leaves_eq]
    exact safe_compileKind r he h

theorem compiles_division (hK : Vocabulary K) {k a b : Term} (hk : K k) (h : k.DivisionKind a b c) :
    ∃ d, Compiles K r k d c := by
  obtain ⟨hd, m, n, s, rfl, hcls, hname⟩ := h.shape
  have hl : (app m .cartesianProduct [a, b] none).leaves = 2 := by
    simp [h.dividend.leaves_eq, h.divisor.leaves_eq]
  refine ⟨.app m .cartesianProduct [a, b] none, hK.whole _ hk, rfl, rfl, by simp [hl],
    by simp [h.target.leaves_eq], ?_⟩
  rw [hl, h.target.leaves_eq]
  simp only [compileTerm, compileKind, hcls, KindClass.isRelation, compileOperator, hname]
  exact safe_pure (.operator (by simp) rfl)

-- A projection counts the arguments that types have, and not their leaves.
theorem compiles_projection {n : Nat} {p : Term} (h : ∀ u ∈ ts, Formed K u ∧ width u = u.leaves)
    (ha : apply n .projection (ts ++ [p]) = .ok t) : ∃ d c, Compiles K r t d c := by
  obtain ⟨k, i, m, c, h1, hk, hc, rfl⟩ := exists_of_projection ha
  obtain ⟨hcf, hcw⟩ := h c (mem_of_getElem? hc)
  have hw : (ts.map width).sum = (ts.map leaves).sum := by
    rw [map_congr_left fun u hu => (h u hu).right]
  have hpos : 0 < c.leaves := hcw ▸ hcf.width_pos
  have hm : c.leaves ∈ ts.map leaves := mem_map_of_mem (mem_of_getElem? hc)
  refine ⟨_, c, .app ?_ ha, rfl, rfl, ?_, hpos, ?_⟩
  · simp only [mem_append, mem_singleton]
    rintro u (hu | rfl)
    · exact (h u hu).left
    · exact .position (by simp [hk])
  · rw [leaves_cartesianProduct]
    exact lt_of_lt_of_le hpos (single_le_sum (by simp) _ hm)
  · rw [leaves_cartesianProduct, ← hw, ← hcw]
    have hlast : (ts ++ [p]).getLast?.bind position? = some k := by simp [hk]
    simpa [compileTerm] using safe_compileProjection hlast (by simpa using hc) h1

theorem compiles_app {n : Nat} {op : Op} (hK : Vocabulary K) (hp : op ≠ .projection)
    (hr : op.role = .element) (h : ∀ u ∈ ts, ∃ d c, Compiles K r u d c)
    (ha : apply n op ts = .ok t) : ∃ d c, Compiles K r t d c := by
  have hf : Formed K t := .app (fun u hu => have ⟨_, _, h⟩ := h u hu; h.formed) ha
  obtain ⟨hadm, m, d, c, he, rfl⟩ := apply_element hr ha
  have hs : (compileTerm r (.app n op ts (some (.app m .functionalType [d, c] none)))).Safe
      (Spans d.leaves c.leaves) ∧ 0 < d.leaves ∧ 0 < c.leaves := by
    cases op <;> simp only [Op.role, reduceCtorEq] at hr
    case projection  => simp at hp
    case composition => exact Compiles.composition hK.coherent h hadm he
    case product     => exact Compiles.product hK.coherent h hadm he
    case inclusion   => exact Compiles.inclusion hK.coherent h hadm he
    case inverse     => exact Compiles.inverse h hadm he
    case aggregation => exact Compiles.aggregation hK.coherent h hadm he
  exact ⟨d, c, hf, rfl, rfl, hs.2.1, hs.2.2, hs.1⟩

theorem Compiles.safe_compile (h : Compiles K r t d c) :
    (compile r t).Safe fun q => q.HasColumns d.leaves c.leaves := by
  refine Safe.bind (P := fun _ => True) (fun _ => trivial) fun _ _ => ?_
  refine h.safe.bind fun compiled hc => (safe_asQuery hc).bind fun q hq => ?_
  split
  · exact safe_ofExcept (Query.bounded_dedup hq)
  · exact safe_pure hq

theorem Posable.compiles (hK : Vocabulary K) (r : Setting) (h : Posable K t) :
    ∃ d c, Compiles K r t d c := by
  induction h
  case «variable» hk he hv ho => exact ⟨_, _, compiles_kind hK hk he (.inl ⟨hv, ho⟩)⟩
  case relation hk he hr      => exact ⟨_, _, compiles_kind hK hk he (.inr (.inl hr))⟩
  case constant hk he hc      => exact ⟨_, _, compiles_kind hK hk he (.inr (.inr hc))⟩
  case division hk hd         => exact (compiles_division hK hk hd).imp fun _ h => ⟨_, h⟩
  case projection h ha        =>
    exact compiles_projection (fun u hu => (h u hu).imp_right And.right) ha
  case app hp hr _ ha ih      => exact compiles_app hK hp hr ih ha

theorem Askable.compiles (hK : Vocabulary K) (r : Setting) (h : Askable K t) :
    ∃ d c, Compiles K r t d c :=
  Posable.compiles hK r h.posable

-- A compiled query has a column for each leaf of its ends. The other part says that no place past the
-- end of a list is asked for, so that a projection finds all columns that it keeps.
theorem compile_has_column_per_leaf (hK : Vocabulary K) (ht : Askable K t) (r : Setting)
    (s : Session) :
    (∀ q s', (compile r t).Gives s q s' → ∃ d c, t.dom = .ok d ∧ t.cod = .ok c ∧
      q.domain.length = d.leaves ∧ q.codomain.length = c.leaves) ∧
    ∀ s', (compile r t).runIn s ≠ (.error .outOfRange, s') := by
  have ⟨d, c, h⟩ := Askable.compiles hK r ht
  have hb := h.safe_compile s
  refine ⟨fun q s' hq => ?_, fun s' he => ?_⟩
  · rw [hq] at hb
    exact ⟨d, c, h.dom, h.cod, hb.domain, hb.codomain⟩
  · rw [he] at hb
    exact hb rfl

-- The pairs of incomes that persons have, with the second income of each pair.
namespace Pairs

open Copies

def pairs (n : Nat) : Term := .app n .cartesianProduct [amount, amount] none

def both : Term :=
  .app 7 .product [income 1, income 4] (some (.app 9 .functionalType [person 3, pairs 8] none))

def inverted : Term :=
  .app 10 .inverse [both] (some (.app 12 .functionalType [.app 11 .range [both] none, pairs 8] none))

def second : Term :=
  .app 13 .projection [amount, amount, .number 2]
    (some (.app 15 .functionalType [pairs 14, amount] none))

def seconds : Term :=
  .app 16 .composition [second, inverted]
    (some (.app 17 .functionalType [.app 11 .range [both] none, amount] none))

theorem vocabulary : Vocabulary Copy where
  coherent := coherent
  whole    := by
    rintro _ (_ | n | n)
    · exact .kind .amount (by simp)
    · exact .kind (.person n) (by simp)
    · exact formed_income n

theorem askable_income (n : Nat) : Askable Copy (income n) :=
  have hp : (person (n + 2)).TypeKind := ⟨_, _, _, _, _, rfl, rfl⟩
  have ha : amount.TypeKind := ⟨_, _, _, _, _, rfl, rfl⟩
  .variable (.income n) ⟨⟨_, _, _, rfl, rfl⟩, hp, ha⟩ rfl rfl

theorem askable_seconds : Askable Copy seconds := by
  have ha : Formed Copy amount := vocabulary.whole _ .amount
  have second_ok : apply 13 .projection ([amount, amount] ++ [.number 2]) = .ok second := rfl
  have both_ok : apply 7 .product [income 1, income 4] = .ok both := rfl
  have inverted_ok : apply 10 .inverse [both] = .ok inverted := rfl
  have seconds_ok : apply 16 .composition [second, inverted] = .ok seconds := rfl
  have hs : Askable Copy second := .projection (by simpa using ⟨ha, .kind⟩) second_ok
  have hb : Askable Copy both := .app (by simp) rfl (by simp [askable_income]) both_ok
  have hi : Askable Copy inverted := .app (by simp) rfl (by simpa using hb) inverted_ok
  exact .app (by simp) rfl (by simp [hs, hi]) seconds_ok

theorem seconds_columns : ∃ q s', (compile { designs := [] } seconds).Gives {} q s' ∧
    q.domain.length = 2 ∧ q.codomain.length = 1 := by
  have hq : ((compile { designs := [] } seconds).runIn {}).1.toOption.isSome := by decide +kernel
  rcases hr : (compile { designs := [] } seconds).runIn {} with ⟨e | q, s'⟩
  · simp [hr, Except.toOption] at hq
  · obtain ⟨h, _⟩ := compile_has_column_per_leaf vocabulary askable_seconds { designs := [] } {}
    obtain ⟨d, c, hd, hc, hdl, hcl⟩ := h q s' hr
    obtain rfl : _ = d := Except.ok.inj hd
    obtain rfl : _ = c := Except.ok.inj hc
    refine ⟨q, s', hr, hdl.trans ?_, hcl.trans ?_⟩
    · rw [leaves_range (c := pairs 8) rfl]
      simp [pairs, amount]
    · simp [amount]

end Pairs
end Sql
end Inquiry
