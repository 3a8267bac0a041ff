import Mathlib
import Inquiry.Proofs.Sql.Tables
import Inquiry.Sql.Compile

/-!
What queries mean. The names that a query introduces stand for rows: one of the table that it reads,
and for each join one of the joined table under which its conditions hold. Queries are well scoped
if all their columns belong to a name that was introduced, once, before.
-/

namespace Inquiry

open List

namespace Sql

-- The content of a column, if there is any.
abbrev Cell := Option String

abbrev Row := String → Cell

abbrev Database := String → List Row

-- The rows that the names of a query stand for.
abbrev Binding := List (String × Row)

namespace Database

-- The rows of a table have identifiers, all of them different.
structure Keyed (db : Database) : Prop where
  distinct : ∀ table, ((db table).map (· (identifierColumn table))).Nodup
  given    : ∀ table, ∀ r ∈ db table, (r (identifierColumn table)).isSome

def find (db : Database) (table : String) (key : Cell) : Option Row :=
  key.bind fun k => (db table).find? fun r => r (identifierColumn table) == some k

variable {db : Database} {table : String} {key : Cell} {r : Row}

theorem find_eq_some (h : db.find table key = some r) :
    r ∈ db table ∧ key.isSome ∧ r (identifierColumn table) = key := by
  simp only [find, Option.bind_eq_some_iff] at h
  have ⟨k, hk, h⟩ := h
  exact ⟨mem_of_find?_eq_some h, by simp [hk], by simpa [hk] using find?_some h⟩

theorem filter_eq_find (h : db.Keyed) (table : String) (key : Cell) : (db table).filter (fun r =>
    (r (identifierColumn table)).isSome && r (identifierColumn table) == key)
      = (db.find table key).toList := by
  have hd := h.distinct table
  cases key
  case none =>
    simp only [find, Option.bind_none, Option.toList_none, filter_eq_nil_iff]
    intro r _
    cases r (identifierColumn table) <;> simp
  case some k =>
    simp only [find, Option.bind_some]
    generalize db table = rows at hd
    induction rows
    case nil => rfl
    case cons r rows ih =>
      simp only [map_cons, nodup_cons, mem_map, not_exists, not_and] at hd
      by_cases hr : r (identifierColumn table) = some k
      case neg => simpa [find?_cons, hr] using ih hd.right
      case pos =>
        have hn : ∀ r' ∈ rows, ¬r' (identifierColumn table) = some k := hr ▸ hd.left
        simpa [find?_cons, hr, filter_eq_nil_iff] using fun r' h _ => hn r' h

theorem find_identifier (h : db.Keyed) (hr : r ∈ db table) :
    db.find table (r (identifierColumn table)) = some r := by
  have hm : r ∈ (db.find table (r (identifierColumn table))).toList := by
    rw [← filter_eq_find h]
    simpa [hr] using h.given table r hr
  simpa using hm

end Database

-- The value of a text that stands for itself, without quotes.
def literal (text : String) : Cell :=
  match text.toList with
  | '\'' :: cs => some (String.ofList cs.dropLast)
  | _          => some text

namespace Item

def isColumn : Item → Bool
  | column .. => true
  | expr ..   => false

-- Only columns have a value of their own.
def value (e : Binding) : Item → Cell
  | column _ t n _ => if t.isEmpty then literal n else (e.lookup t).bind (· n)
  | expr ..        => none

end Item

-- What is missing equals nothing.
def Cond.holds (e : Binding) (c : Cond) : Bool :=
  (c.lhs.value e).isSome && c.lhs.value e == c.rhs.value e

namespace Join

-- All ways to add a row of the joined table.
def extend (db : Database) (j : Join) (e : Binding) : List Binding :=
  ((db j.table).map fun r => e ++ [(j.name, r)]).filter fun e => j.conds.all (Cond.holds e)

end Join

-- The conditions of each join mention only names that were introduced up to it.
def JoinsScoped : List String → List Join → Prop
  | _, []           => True
  | before, j :: js =>
    (∀ c ∈ j.conds, ∀ t ∈ c.tables, t = "" ∨ t ∈ before ++ [j.name]) ∧
      JoinsScoped (before ++ [j.name]) js

instance JoinsScoped.decidable : (before : List String) → (js : List Join) →
    Decidable (JoinsScoped before js)
  | _, []           => .isTrue trivial
  | before, j :: js =>
    have := decidable (before ++ [j.name]) js
    inferInstanceAs (Decidable (_ ∧ _))

namespace Body

def names (b : Body) : List String :=
  (b.source.map Source.name).toList ++ b.joins.map (·.name)

-- An empty name stands for no table.
structure Scoped (b : Body) : Prop where
  distinct : b.names.Nodup
  items    : ∀ i ∈ b.items, ∀ t ∈ i.tables, t = "" ∨ t ∈ b.names
  joins    : JoinsScoped (b.source.map Source.name).toList b.joins
  wheres   : ∀ c ∈ b.wheres, ∀ t ∈ c.tables, t = "" ∨ t ∈ b.names
  groups   : ∀ i ∈ b.groups.columns, ∀ t ∈ i.tables, t = "" ∨ t ∈ b.names

instance (b : Body) : Decidable b.Scoped :=
  decidable_of_iff (b.names.Nodup ∧ (∀ i ∈ b.items, ∀ t ∈ i.tables, t = "" ∨ t ∈ b.names) ∧
      JoinsScoped (b.source.map Source.name).toList b.joins ∧
      (∀ c ∈ b.wheres, ∀ t ∈ c.tables, t = "" ∨ t ∈ b.names) ∧
      ∀ i ∈ b.groups.columns, ∀ t ∈ i.tables, t = "" ∨ t ∈ b.names)
    ⟨fun ⟨h₁, h₂, h₃, h₄, h₅⟩ => ⟨h₁, h₂, h₃, h₄, h₅⟩, fun ⟨h₁, h₂, h₃, h₄, h₅⟩ => ⟨h₁, h₂, h₃, h₄, h₅⟩⟩

-- A query that gives columns row by row, without grouping, ordering or leaving out rows.
def isPlain (b : Body) : Bool :=
  b.items.all Item.isColumn && !b.groups.groupsRows && !b.distinct && b.orderBy.isNone

-- A query without a table has one row.
def bindings (db : Database) (b : Body) : List Binding :=
  b.joins.foldl (fun es j => es.flatMap (j.extend db)) <|
    match b.source with
    | some s => if s.table.isEmpty then [[]] else (db s.table).map fun r => [(s.name, r)]
    | none   => [[]]

def rows (db : Database) (b : Body) : Option (List (List Cell)) :=
  if b.isPlain ∧ b.Scoped then
    some (((b.bindings db).filter fun e => b.wheres.all (Cond.holds e)).map fun e =>
      b.items.map (Item.value e))
  else none

end Body
end Sql
end Inquiry
