import Mathlib
import Inquiry.Proofs.Run
import Inquiry.Sql.Change

/-!
The tables that queries mention, and what becomes of them when one table takes the place of another.
-/

namespace Inquiry

open List

namespace Sql

-- The table that stands where `t` stood, once `new` has taken the place of `old`.
def standIn (old new t : String) : String :=
  if t == old then new else t

namespace Item

def tables : Item → List String
  | column _ t _ _    => [t]
  | expr _ args _ _ _ => tablesOfList args
where
  tablesOfList : List Item → List String
    | []      => []
    | i :: is => i.tables ++ tablesOfList is

mutual

theorem tables_replaceTable (old new : String) :
    (i : Item) → (i.replaceTable old new).tables = i.tables.map (standIn old new)
  | column ..         => by simp [replaceTable, tables, standIn]
  | expr _ args _ _ _ => by simp [replaceTable, tables, tablesOfList_replaceTables old new args]

theorem tablesOfList_replaceTables (old new : String) : (is : List Item) →
    tables.tablesOfList (replaceTable.replaceTables old new is)
      = (tables.tablesOfList is).map (standIn old new)
  | []      => rfl
  | i :: is => by
    simp [replaceTable.replaceTables, tables.tablesOfList, tables_replaceTable old new i,
      tablesOfList_replaceTables old new is]

end

end Item

namespace Cond

def tables (c : Cond) : List String :=
  c.lhs.tables ++ c.rhs.tables

theorem tables_replaceTable (old new : String) (c : Cond) :
    (c.replaceTable old new).tables = c.tables.map (standIn old new) := by
  simp [tables, replaceTable, Item.tables_replaceTable]

end Cond

theorem Source.table_replaceTable (old new : String) (s : Source) :
    (s.replaceTable old new).table = standIn old new s.table := by
  simp only [replaceTable, standIn]
  split <;> rfl

namespace Join

def tables (j : Join) : List String :=
  j.table :: j.conds.flatMap Cond.tables

theorem tables_replaceTable (old new : String) (j : Join) :
    (j.replaceTable old new).tables = j.tables.map (standIn old new) := by
  simp [tables, replaceTable, Source.table_replaceTable, flatMap_map, map_flatMap,
    Cond.tables_replaceTable]

end Join

namespace Body

def tables (b : Body) : List String :=
  b.items.flatMap Item.tables ++ (b.source.map (·.table)).toList ++ b.joins.flatMap Join.tables
    ++ b.wheres.flatMap Cond.tables ++ b.groups.columns.flatMap Item.tables

theorem tables_flatMap_map {f : α → α} {tables : α → List String} {g : String → String}
    (h : ∀ a, tables (f a) = (tables a).map g) (as : List α) :
    (as.map f).flatMap tables = (as.flatMap tables).map g := by
  simp [flatMap_map, map_flatMap, h]

-- The query `b'` is `b` with `new` in the place of `old`, and maybe with fewer joins.
structure Replaced (old new : String) (b b' : Body) : Prop where
  domain   : b'.domain = b.domain.map (Item.replaceTable old new)
  codomain : b'.codomain = b.codomain.map (Item.replaceTable old new)
  source   : b'.source = b.source.map (Source.replaceTable old new)
  joins    : b'.joins <+ b.joins.map (Join.replaceTable old new)
  wheres   : b'.wheres = b.wheres.map (Cond.replaceTable old new)
  columns  : b'.groups.columns = b.groups.columns.map (Item.replaceTable old new)

theorem replaceSide_eq {old new : String} {i i' : Item} (h : replaceSide old new i = .ok i') :
    i' = i.replaceTable old new := by
  cases i
  case column p t n a =>
    simp only [replaceSide, Item.table, bind_eq_ok, Except.ok.injEq] at h
    obtain ⟨_, ht, h⟩ := h
    subst ht
    split at h <;> simp_all [Item.replaceTable]
  case expr => simp [replaceSide, Item.table, bind_eq_ok] at h

theorem keepJoin_cases {kept kept' : List Join} {j : Join} (h : keepJoin kept j = .ok kept') :
    kept' = kept ∨ kept' = kept ++ [j] := by
  simp only [keepJoin, bind_eq_ok] at h
  obtain ⟨trivial, _, h⟩ := h
  cases trivial
  case true =>
    simp only [if_true, pure_eq_ok] at h
    exact .inl h.symm
  case false =>
    simp only [Bool.false_eq_true, if_false, bind_eq_ok] at h
    obtain ⟨news, _, h⟩ := h
    cases news <;> simp at h
    · exact .inl h.symm
    · exact .inr h.symm

theorem keepJoin_sublist {kept kept' js : List Join} (h : js.foldlM keepJoin kept = .ok kept') :
    kept' <+ kept ++ js := by
  induction js generalizing kept
  case nil => simp_all
  case cons j js ih =>
    simp only [foldlM_cons, bind_eq_ok] at h
    have ⟨k, hk, h⟩ := h
    refine (ih h).trans ?_
    cases keepJoin_cases hk
    case inl hk => simp [hk]
    case inr hk => simp [hk]

theorem replaced_of_replaceTable {old new : String} {b b' : Body}
    (h : b.replaceTable old new = .ok b') : Replaced old new b b' := by
  simp only [replaceTable] at h
  cases hs : b.source <;> simp only [hs] at h
  case none => simp at h
  case some source =>
    simp only [bind_eq_ok] at h
    obtain ⟨joins, hj, wheres, hw, h⟩ := h
    have hw : wheres = b.wheres.map (Cond.replaceTable old new) := by
      refine mapM_eq_map (fun c c' hc => ?_) hw
      simp only [bind_eq_ok, pure_eq_ok] at hc
      obtain ⟨_, hl, _, hr, hc⟩ := hc
      simp [← hc, Cond.replaceTable, replaceSide_eq hl, replaceSide_eq hr]
    have hj : joins <+ b.joins.map (Join.replaceTable old new) := by
      simpa using keepJoin_sublist hj
    cases hg : b.groups <;> simp only [hg, bind_eq_ok, map_eq_ok, pure_eq_ok] at h
    case whole =>
      obtain ⟨_, hgs, h⟩ := h
      subst hgs h
      exact ⟨rfl, rfl, by simp [hs], hj, hw, by simp [hg, Grouping.columns]⟩
    case «by» cols =>
      obtain ⟨_, ⟨cols', hc, hgs⟩, h⟩ := h
      subst hgs h
      have hc : cols' = cols.map (Item.replaceTable old new) :=
        mapM_eq_map (fun _ _ => replaceSide_eq) hc
      exact ⟨rfl, rfl, by simp [hs], hj, hw, by simp [hg, hc, Grouping.columns]⟩

theorem Replaced.tables_sublist {old new : String} {b b' : Body} (h : Replaced old new b b') :
    b'.tables <+ b.tables.map (standIn old new) := by
  have hi := tables_flatMap_map (Item.tables_replaceTable old new)
  have hc := tables_flatMap_map (Cond.tables_replaceTable old new)
  have hj := h.joins.flatMap Join.tables
  rw [tables_flatMap_map (Join.tables_replaceTable old new)] at hj
  have hs : (b'.source.map (·.table)).toList
      = (b.source.map (·.table)).toList.map (standIn old new) := by
    cases hb : b.source <;> simp [h.source, hb, Source.table_replaceTable]
  simp only [Body.tables, items, h.domain, h.codomain, h.wheres, h.columns, hs,
    ← map_append, hi, hc]
  simp only [map_append]
  exact (((List.Sublist.refl _).append hj).append_right _).append_right _

end Body
end Sql
end Inquiry
