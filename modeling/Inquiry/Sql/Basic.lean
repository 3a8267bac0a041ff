import Inquiry.Failure

/-!
Queries: what is selected, from which tables, under which conditions. The parts of a query are
numbered; a part that is mentioned in two places is one part, so that a change to it shows in both.
-/

namespace Inquiry
namespace Sql

-- Something to select. An empty table or alias stands for none, and a column without the place for
-- an alias can only be mentioned, not selected anew.
inductive Item where
  | column (part : Nat) (table name : String) (asName : Option String)
  | expr (part : Nat) (args : List Item) (asName before between : String)
  deriving Inhabited

-- Two items are to be equal.
structure Cond where
  part : Nat
  lhs  : Item
  rhs  : Item
  deriving Inhabited

-- A table, possibly under another name.
structure Source where
  part  : Nat
  table : String
  asName : String := ""
  deriving Inhabited

structure Join extends Source where
  conds : List Cond := []
  deriving Inhabited

-- Rows are grouped by some columns, or all rows make up one group.
inductive Grouping where
  | by (columns : List Item)
  | whole
  deriving Inhabited

-- A query without the temporary tables that it needs: one row for each member of a domain, with the
-- columns of the domain before those of the codomain.
structure Body where
  domain   : List Item
  codomain : List Item
  source   : Option Source
  joins    : List Join := []
  wheres   : List Cond := []
  groups   : Grouping := .by []
  distinct : Bool := false
  orderBy  : Option String := none
  orderDir : String := ""
  deriving Inhabited

-- A query whose result is kept as a temporary table.
structure Frozen extends Body where
  table : String
  deriving Inhabited

structure Query extends Body where
  part   : Nat
  frozen : List Frozen := []
  deriving Inhabited

namespace Item

def part : Item → Nat
  | column p .. => p
  | expr p ..   => p

def asName? : Item → Option String
  | column _ _ _ a   => a
  | expr _ _ a _ _   => some a

def asName (i : Item) : Except Failure String :=
  match i.asName? with
  | some a => .ok a
  | none   => .error .absent

def table : Item → Except Failure String
  | column _ t _ _ => .ok t
  | expr ..        => .error .absent

def name : Item → Except Failure String
  | column _ _ n _ => .ok n
  | expr ..        => .error .absent

def withAlias (a : String) : Item → Item
  | column p t n _            => column p t n (some a)
  | expr p args _ before between => expr p args a before between

def parts : Item → List Nat
  | column p ..    => [p]
  | expr p args .. => p :: partsOfList args
where
  partsOfList : List Item → List Nat
    | []      => []
    | i :: is => i.parts ++ partsOfList is

def renumber (f : Nat → Nat) : Item → Item
  | column p t n a => column (f p) t n a
  | expr p args a before between => expr (f p) (renumberList args) a before between
where
  renumberList : List Item → List Item
    | []      => []
    | i :: is => i.renumber f :: renumberList is

end Item

namespace Grouping

def groupsRows : Grouping → Bool
  | .by cols => !cols.isEmpty
  | whole    => true

def columns : Grouping → List Item
  | .by cols => cols
  | whole    => []

end Grouping

namespace Body

def items (b : Body) : List Item :=
  b.domain ++ b.codomain

end Body
end Sql
end Inquiry
