import Mathlib
import Inquiry.Answer.Table
import Inquiry.Proofs.Sql.LeafColumns

/-!
The titles above the table that answers a request. A query has a column for each leaf of its ends,
and the titles are those of the leaves, in the same order. Leaves of some classes have no title, so
the titles fit the columns exactly if no leaf is of such a class.
-/

namespace Inquiry

open List

namespace Term

variable {t u d c : Term} {ts : List Term} {n : Nat} {ty : Option Term}

def leafKinds : Term → List Term
  | app _ .cartesianProduct ts _ => (ts.attach.map fun t => leafKinds t.1).flatten
  | app _ .selection (t :: _) _  =>
    match _h : t.dom with
    | .ok d    => leafKinds d
    | .error _ => []
  | app _ .range (t :: _) _ =>
    match _h : t.cod with
    | .ok c    => leafKinds c
    | .error _ => []
  | t => [t]
termination_by t => sizeOf t
decreasing_by
  · have := sizeOf_lt_of_mem t.2
    simp +arith; omega
  · have := sizeOf_typeArg _h
    simp +arith; omega
  · have := sizeOf_typeArg _h
    simp +arith; omega

theorem leafKinds_kind (h : KindHead) (ty d c s : Option Term) :
    (kind h ty d c s).leafKinds = [kind h ty d c s] := by
  rw [leafKinds] <;> simp

theorem leafKinds_cartesianProduct :
    (app n .cartesianProduct ts ty).leafKinds = ts.flatMap leafKinds := by
  rw [leafKinds]
  simp [List.flatMap]

theorem leafKinds_selection (h : t.dom = .ok d) :
    (app n .selection (t :: ts) ty).leafKinds = d.leafKinds := by
  rw [leafKinds]
  split <;> simp_all

theorem leafKinds_range (h : t.cod = .ok c) :
    (app n .range (t :: ts) ty).leafKinds = c.leafKinds := by
  rw [leafKinds]
  split <;> simp_all

theorem Tabular.length_leafKinds (h : t.Tabular) : t.leafKinds.length = t.leaves := by
  induction h
  case kind => simp [leafKinds_kind]
  case product ih =>
    rw [leafKinds_cartesianProduct, leaves_cartesianProduct, length_flatMap,
      map_congr_left ih]
  case selection hd _ ih => rw [leafKinds_selection hd, leaves_selection hd, ih]
  case range hc _ ih     => rw [leafKinds_range hc, leaves_range hc, ih]

-- The title above the column of a kind. Kinds of the other classes have none.
def title? : Term → Option String
  | .kind h .. =>
    match h.cls with
    | .phenomenon | .quantity | .one => some h.name
    | .objectType                    => some (h.name ++ "-id")
    | _                              => none
  | _ => none

theorem titles_kind (h : KindHead) (ty d c s : Option Term) :
    Answer.titles (kind h ty d c s) = .ok (title? (kind h ty d c s)).toList := by
  cases hc : h.cls <;> simp [Answer.titles, title?, hc, KindClass.isPhenomenon]

theorem titlesAt_eq {i : Nat} (h : ts[i]? = some t) :
    Answer.titles.titlesAt i ts = Answer.titles t := by
  induction ts generalizing i
  case nil => simp at h
  case cons u ts ih =>
    cases i
    case zero   => rw [Answer.titles.titlesAt, Option.some.inj h]
    case succ i => exact ih h

theorem titlesOfEnd_eq {i : Nat} {a : Term} (h : t.typeArg i = .ok a) :
    Answer.titles.titlesOfEnd i (t :: ts) = Answer.titles a := by
  obtain ⟨n, op, ends, ty, hty, ha⟩ := typeArg_eq_ok.mp h
  rw [← titlesAt_eq ha]
  cases t <;> simp only [type?, reduceCtorEq] at hty <;> subst hty <;> rfl

theorem titlesOfList_eq {f : Term → List String} (h : ∀ t ∈ ts, Answer.titles t = .ok (f t)) :
    Answer.titles.titlesOfList ts = .ok (ts.flatMap f) := by
  induction ts
  case nil => rfl
  case cons t ts ih =>
    obtain ⟨ht, hts⟩ := forall_mem_cons.mp h
    simp [Answer.titles.titlesOfList, ht, ih hts, pure, Except.pure]

theorem Tabular.titles_eq (h : t.Tabular) :
    Answer.titles t = .ok (t.leafKinds.filterMap title?) := by
  induction h
  case kind h ty d c s =>
    rw [titles_kind, leafKinds_kind, filterMap_cons, filterMap_nil]
    cases title? (.kind h ty d c s) <;> rfl
  case product ih =>
    rw [leafKinds_cartesianProduct, filterMap_flatMap]
    exact titlesOfList_eq ih
  case selection hd _ ih => rw [Answer.titles, titlesOfEnd_eq hd, leafKinds_selection hd, ih]
  case range hc _ ih     => rw [Answer.titles, titlesOfEnd_eq hc, leafKinds_range hc, ih]

-- The element goes from one type that is made of kinds to another one.
def TabularEnds (t : Term) : Prop :=
  ∃ n d c, t.type? = some (.app n .functionalType [d, c] none) ∧ d.Tabular ∧ c.Tabular

namespace TabularEnds

theorem dom (h : t.TabularEnds) (hd : t.dom = .ok d) : d.Tabular := by
  obtain ⟨n, d', c', hty, hd', -⟩ := h
  obtain ⟨_, _, _, _, hty', ha⟩ := typeArg_eq_ok.mp hd
  cases hty.symm.trans hty'
  cases ha
  exact hd'

theorem cod (h : t.TabularEnds) (hc : t.cod = .ok c) : c.Tabular := by
  obtain ⟨n, d', c', hty, -, hc'⟩ := h
  obtain ⟨_, _, _, _, hty', ha⟩ := typeArg_eq_ok.mp hc
  cases hty.symm.trans hty'
  cases ha
  exact hc'

end TabularEnds

theorem EndsOf.tabular {op : Op} (he : EndsOf op ts d c) (hp : op ≠ .projection)
    (h : ∀ u ∈ ts, u.TabularEnds) : d.Tabular ∧ c.Tabular := by
  cases he
  case projection => simp at hp
  case composition t u ht hu hd hc =>
    exact ⟨(h u (mem_of_getLast? hu)).dom hd, (h t (mem_of_head? ht)).cod hc⟩
  case product t ts cs i hcs hd hc =>
    obtain ⟨-, rfl⟩ := form_eq_ok.mp hc
    refine ⟨(h t (by simp)).dom hd, .product fun c' hc' => ?_⟩
    obtain ⟨u, hu, huc⟩ := exists_of_mem_right (mapM_eq_ok.mp hcs) hc'
    exact (h u hu).cod huc
  case inclusion t ts i hd hc =>
    obtain ⟨-, rfl⟩ := form_eq_ok.mp hd
    have ht := (h t (by simp)).dom hc
    exact ⟨.selection hc ht, ht⟩
  case inverse t ts i hd hc =>
    obtain ⟨-, rfl⟩ := form_eq_ok.mp hd
    have ht := (h t (by simp)).cod hc
    exact ⟨.range hc ht, ht⟩
  case aggregation v w ts hd hc =>
    exact ⟨(h w (by simp)).cod hd, (h v (by simp)).cod hc⟩

variable {K : Term → Prop} {k : Term}

theorem TypeKind.tabular (h : k.TypeKind) : k.Tabular := by
  obtain ⟨_, _, _, _, _, rfl, _⟩ := h
  exact .kind

theorem ElementKind.tabularEnds (h : k.ElementKind d c) : k.TabularEnds := by
  obtain ⟨_, n, _, rfl, _⟩ := h.shape
  exact ⟨n, d, c, rfl, h.source.tabular, h.target.tabular⟩

theorem Posable.tabularEnds (h : Posable K t) : t.TabularEnds := by
  induction h
  case «variable» he _ _ | relation he _ | constant he _ => exact he.tabularEnds
  case division k a b c _ h =>
    obtain ⟨_, m, n, _, rfl, _, _⟩ := h.shape
    refine ⟨n, _, c, rfl, .product ?_, h.target.tabular⟩
    simp [h.dividend.tabular, h.divisor.tabular]
  case projection n ts p t hts ha =>
    obtain ⟨k, i, m, c, _, _, hc, rfl⟩ := exists_of_projection ha
    exact ⟨m, _, c, rfl, .product fun u hu => (hts u hu).right.left,
      (hts c (mem_of_getElem? hc)).right.left⟩
  case app n op ts t hp hr _ ha ih =>
    obtain ⟨-, m, d, c, he, rfl⟩ := apply_element hr ha
    exact ⟨m, d, c, rfl, he.tabular hp ih⟩

theorem TabularEnds.columnTitles_eq (h : t.TabularEnds) (hd : t.dom = .ok d) (hc : t.cod = .ok c) :
    Answer.columnTitles t = .ok ((d.leafKinds ++ c.leafKinds).filterMap title?) := by
  have htd := (h.dom hd).titles_eq
  have htc := (h.cod hc).titles_eq
  obtain ⟨n, d', c', hty, -, -⟩ := h
  obtain rfl : d' = d := by simpa [Term.dom, typeArg, hty, args] using hd
  obtain rfl : c' = c := by simpa [Term.cod, typeArg, hty, args] using hc
  have htitles : Answer.titles (.app n .functionalType [d', c'] none) =
      .ok ((d'.leafKinds ++ c'.leafKinds).filterMap title?) := by
    simp [Answer.titles, Answer.titles.titlesOfList, htd, htc, pure, Except.pure]
  cases t <;> simp only [type?, reduceCtorEq] at hty
  all_goals simpa [Answer.columnTitles, hty] using htitles

end Term

namespace Sql

open SessionM Term

variable {K : Term → Prop} {t : Term}

-- The titles are those of the leaves of the ends, and a query has a column for each leaf. So the
-- titles fit the columns exactly if all leaves have one, and then each stands above its own column.
theorem columnTitles_fit_iff (hK : Vocabulary K) (ht : Posable K t) (r : Setting) {s s' : Session}
    {q : Query} (hq : (compile r t).Gives s q s') :
    ∃ d c titles, t.dom = .ok d ∧ t.cod = .ok c ∧ Answer.columnTitles t = .ok titles ∧
      q.domain.length = d.leafKinds.length ∧ q.codomain.length = c.leafKinds.length ∧
      titles = (d.leafKinds ++ c.leafKinds).filterMap title? ∧
      (titles.length = (q.domain ++ q.codomain).length ↔
        ∀ k ∈ d.leafKinds ++ c.leafKinds, (title? k).isSome) ∧
      (titles.length = (q.domain ++ q.codomain).length →
        titles.map some = (d.leafKinds ++ c.leafKinds).map title?) := by
  obtain ⟨d, c, h⟩ := Posable.compiles hK r ht
  have hb := h.safe_compile s
  rw [hq] at hb
  have he := ht.tabularEnds
  have hdom : q.domain.length = d.leafKinds.length :=
    hb.domain.trans (he.dom h.dom).length_leafKinds.symm
  have hcod : q.codomain.length = c.leafKinds.length :=
    hb.codomain.trans (he.cod h.cod).length_leafKinds.symm
  have hfit : ((d.leafKinds ++ c.leafKinds).filterMap title?).length =
      (q.domain ++ q.codomain).length ↔ ∀ k ∈ d.leafKinds ++ c.leafKinds, (title? k).isSome := by
    rw [List.length_append, hdom, hcod, ← List.length_append, List.filterMap_length_eq_length]
  refine ⟨d, c, _, h.dom, h.cod, he.columnTitles_eq h.dom h.cod, hdom, hcod, rfl, hfit, fun hl => ?_⟩
  rw [List.map_filterMap_some_eq_filter_map_isSome, List.filter_eq_self]
  exact List.forall_mem_map.mpr (hfit.mp hl)

-- The second income of persons, by pairs of incomes: three columns with three titles.
theorem seconds_titles : ∃ q s', (compile { designs := [] } Pairs.seconds).Gives {} q s' ∧
    Answer.columnTitles Pairs.seconds = .ok ["bedrag", "bedrag", "bedrag"] ∧
    (q.domain ++ q.codomain).length = 3 := by
  have hq : ((compile { designs := [] } Pairs.seconds).runIn {}).1.toOption.isSome := by
    decide +kernel
  cases hr : (compile { designs := [] } Pairs.seconds).runIn {}
  case mk x s' =>
    cases x
    case error e => simp [hr, Except.toOption] at hq
    case ok q    =>
      obtain ⟨d, c, titles, hd, hc, ht, hdom, hcod, rfl, -, -⟩ :=
        columnTitles_fit_iff Pairs.vocabulary Pairs.askable_seconds.posable { designs := [] } hr
      obtain rfl : _ = d := Except.ok.inj hd
      obtain rfl : _ = c := Except.ok.inj hc
      have hp : (Pairs.pairs 8).leafKinds = [Copies.amount, Copies.amount] := by
        rw [Pairs.pairs, leafKinds_cartesianProduct]
        simp [Copies.amount, leafKinds_kind]
      rw [leafKinds_range (c := Pairs.pairs 8) rfl, hp] at ht hdom
      rw [Copies.amount, leafKinds_kind] at hcod
      refine ⟨q, s', hr, ht.trans ?_, ?_⟩
      · rw [Copies.amount, leafKinds_kind]
        rfl
      · rw [List.length_append, hdom, hcod]
        rfl

end Sql
end Inquiry
