import Inquiry.Sql.Printing
import Inquiry.Session.Basic

/-!
Changes to queries: renaming and replacing tables, leaving out what is there already, and keeping
the result of a query as a temporary table.
-/

namespace Inquiry
namespace Sql

def takeParts (n : Nat) : SessionM Nat :=
  modifyGet fun s => (s.parts, { s with parts := s.parts + n })

def newPart : SessionM Nat :=
  takeParts 1

def perMention (mentions : List Nat) (f : Item → Except Failure Item) (i : Item) :
    Except Failure Item :=
  (List.replicate (mentions.count i.part) ()).foldlM (fun i _ => f i) i

namespace Item

def renameTable (old new : String) : Item → Except Failure Item
  | column p t n a => .ok (column p (Text.replaceFirst old new t) n a)
  | expr ..        => .error .absent

def replaceTable (old new : String) : Item → Item
  | column p t n a => column p (if t == old then new else t) n a
  | expr p args a before between => expr p (replaceTables args) a before between
where
  replaceTables : List Item → List Item
    | []      => []
    | i :: is => i.replaceTable old new :: replaceTables is

def bare : Item → SessionM Item
  | column _ t n (some _) => return column (← newPart) t n none
  | _                     => throw .absent

def create (table name asName : String) : SessionM Item :=
  return column (← newPart) table name (some asName)

def copies (is : List Item) : SessionM (List Item) := do
  let old := is.flatMap parts
  let n ← takeParts old.length
  return is.map (renumber fun p => n + old.idxOf p)

end Item

def renameTables (old new : String) (is : List Item) : Except Failure (List Item) :=
  is.mapM (perMention (is.map Item.part) (Item.renameTable old new))

namespace Cond

def sides (cs : List Cond) : List Nat :=
  cs.flatMap fun c => [c.lhs.part, c.rhs.part]

def renameTables (old new : String) (cs : List Cond) : Except Failure (List Cond) :=
  cs.mapM fun c => do
    let rename := perMention (sides cs) (Item.renameTable old new)
    return { c with lhs := ← rename c.lhs, rhs := ← rename c.rhs }

def replaceTable (old new : String) (c : Cond) : Cond :=
  { c with lhs := c.lhs.replaceTable old new, rhs := c.rhs.replaceTable old new }

end Cond

namespace Source

def renameAlias (old new : String) (s : Source) : Source :=
  { s with asName := Text.replaceFirst old new s.asName }

def replaceTable (old new : String) (s : Source) : Source :=
  if s.table == old then { s with table := new } else s

end Source

namespace Join

def create (table asName : String) (conds : List (Item × Item)) : SessionM Join := do
  let conds ← conds.mapM fun (lhs, rhs) => return { part := ← newPart, lhs, rhs : Cond }
  return { part := ← newPart, table, asName, conds }

def renameAlias (old new : String) (j : Join) : Except Failure Join :=
  return { j with conds := ← Cond.renameTables old new j.conds,
                  toSource := j.toSource.renameAlias old new }

def replaceTable (old new : String) (j : Join) : Join :=
  { j with conds := j.conds.map (Cond.replaceTable old new),
           toSource := j.toSource.replaceTable old new }

def alike (j k : Join) : Except Failure Bool := do
  if j.table != k.table || j.conds.length != k.conds.length then return false
  (j.conds.zip k.conds).allM fun (c, d) => do
    if (← c.lhs.name) != (← d.lhs.name) then return false
    return (← c.rhs.text) == (← d.rhs.text)

end Join

namespace Body

def addJoin (b : Body) (j : Join) : Except Failure Body := do
  if ← b.joins.anyM fun k => Join.alike k j then return b
  return { b with joins := b.joins ++ [j] }

def addWhere (b : Body) (c : Cond) : Except Failure Body := do
  if ← b.wheres.anyM fun d => return (← d.text) == (← c.text) then return b
  return { b with wheres := b.wheres ++ [c] }

def tidy (b : Body) : Except Failure Body := do
  let joined ← b.joins.foldlM addJoin { b with joins := [], wheres := [] }
  b.wheres.foldlM addWhere joined

def replaceSide (old new : String) (i : Item) : Except Failure Item := do
  if (← i.table) == old then return i.replaceTable old new else return i

def keepJoin (kept : List Join) (j : Join) : Except Failure (List Join) := do
  if ← j.isTrivial then return kept
  let news ← kept.allM fun k => do
    if ← Join.alike j k then return false
    return (← j.condsText) != (← k.condsText)
  return if news then kept ++ [j] else kept

def replaceTable (old new : String) (b : Body) : Except Failure Body := do
  let domain := b.domain.map (Item.replaceTable old new)
  let codomain := b.codomain.map (Item.replaceTable old new)
  let some source := b.source | throw .absent
  let source := some (source.replaceTable old new)
  let joins ← (b.joins.map (Join.replaceTable old new)).foldlM keepJoin []
  let wheres ← b.wheres.mapM fun c => do
    let lhs ← replaceSide old new c.lhs
    return { c with lhs, rhs := ← replaceSide old new c.rhs }
  let groups ← match b.groups with
    | .whole   => pure .whole
    | .by cols => Grouping.by <$> cols.mapM (replaceSide old new)
  return { b with domain, codomain, source, joins, wheres, groups }

end Body

def columnNames : Nat → List Item → List (Nat × String) → Except Failure (List (Nat × String))
  | _, [], named => .ok named
  | n, i :: is, named => do
    let a ← i.asName
    if a.isEmpty && !named.any (·.1 == i.part) then
      columnNames (n + 1) is (named ++ [(i.part, "col" ++ toString n)])
    else columnNames (n + 1) is named

def applyNames (named : List (Nat × String)) (i : Item) : Item :=
  match named.lookup i.part with
  | some a => i.withAlias a
  | none   => i

namespace Query

def freeze (q : Query) : SessionM Query := do
  let table := "tmp" ++ toString (← get).tables
  modify fun s => { s with tables := s.tables + 1 }
  let named ← ofExcept (columnNames 0 q.items [])
  let domain := q.domain.map (applyNames named)
  let codomain := q.codomain.map (applyNames named)
  let kept : Frozen := { q.toBody with domain, codomain, orderBy := none, orderDir := "", table }
  let source : Source := { part := ← newPart, table }
  let readBack (i : Item) : SessionM Item := do Item.create table (i.asName?.getD "") ""
  return { q with
    frozen := q.frozen ++ [kept]
    source := some source
    domain := ← domain.mapM readBack
    codomain := ← codomain.mapM readBack
    joins := [], wheres := [], groups := .by [] }

def create (b : Body) (frozen : List Frozen) : SessionM Query := do
  let body ← ofExcept b.tidy
  return { body with part := ← newPart, frozen }

-- The stored queries that were kept so far and their texts, those still to be looked at, and the
-- query that reads them.
structure Dedup where
  kept  : List Frozen := []
  texts : List String := []
  main  : Body

def dedupFrom (all : List Frozen) : Nat → List Frozen → Dedup → Except Failure Dedup
  | _, [], d => .ok d
  | 0, _, d => .ok d
  | n + 1, f :: rest, d => do
    let text ← f.toBody.text
    match d.texts.findIdx? (· == text) with
    | none => dedupFrom all n rest { d with kept := d.kept ++ [f], texts := d.texts ++ [text] }
    | some j =>
      let new := (all[j]?.map (·.table)).getD ""
      let rest ← rest.mapM fun g => return { g with toBody := ← g.toBody.replaceTable f.table new }
      dedupFrom all n rest { d with main := ← d.main.replaceTable f.table new }

def dedup (q : Query) : Except Failure Query := do
  let d ← dedupFrom q.frozen q.frozen.length q.frozen { main := q.toBody }
  return { q with toBody := d.main, frozen := d.kept }

end Query
end Sql
end Inquiry
