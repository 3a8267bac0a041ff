import Inquiry.Script.Query

/-!
Making parts of queries and of explanations out of values, and asking something of a part. An
argument that is left out has a value of its own.
-/

namespace Inquiry
namespace Script

-- What can be made.
inductive Made where
  | name
  | asName
  | source
  | column
  | titledColumn
  | expression
  | cond
  | conds
  | join
  | condSource
  | query
  | operator
  | projection
  | condition
  | dimension
  | subject
  | denominator
  deriving DecidableEq, Repr

def Made.arity : Made → Nat × Nat
  | name         => (1, 1)
  | asName       => (1, 1)
  | source       => (1, 2)
  | column       => (2, 2)
  | titledColumn => (3, 3)
  | expression   => (1, 4)
  | cond         => (2, 2)
  | conds        => (0, 0)
  | join         => (2, 4)
  | condSource   => (4, 4)
  | query        => (3, 10)
  | operator     => (0, 2)
  | projection   => (2, 2)
  | condition    => (3, 3)
  | dimension    => (1, 1)
  | subject      => (2, 2)
  | denominator  => (1, 1)

-- Arguments by place; some may be left out.
abbrev Arguments := List (Option Value)

namespace Arguments

def get (as : Arguments) (i : Nat) : Value :=
  ((as[i]?).bind id).getD .null

def textOr (as : Arguments) (i : Nat) (d : String) : String :=
  (((as[i]?).bind id).map Value.text).getD d

def text (as : Arguments) (i : Nat) : String :=
  (as.get i).text

def items (as : Arguments) (i : Nat) : ScriptM (List Sql.Item) :=
  (as.get i).items.mapM ScriptM.item

def cond (as : Arguments) (i j : Nat) : ScriptM Sql.Cond := do
  return ⟨← ScriptM.act Sql.newPart, ← ScriptM.item (as.get i), ← ScriptM.item (as.get j)⟩

def fit (as : Arguments) (m : Made) : Bool :=
  m.arity.1 ≤ ((as.take m.arity.1).filter (·.isSome)).length && as.length ≤ m.arity.2

end Arguments

def bodyOf (as : Arguments) : ScriptM Sql.Body := do
  let groups ← match as.get 5 with
    | .bool true => pure .whole
    | v          => .by <$> v.items.mapM ScriptM.item
  let orderBy := match as.get 8 with
    | .null => none
    | v     => some v.text
  return {
    domain := ← as.items 0, codomain := ← as.items 1, source := (as.get 2).source?
    joins := (as.get 3).items.filterMap Value.join?
    wheres := (as.get 4).items.filterMap Value.cond?
    groups, distinct := (as.get 7).isTrue, orderBy, orderDir := as.textOr 9 "" }

def Made.make (m : Made) (as : Arguments) : ScriptM Value := do
  unless as.fit m do ScriptM.fail .mistyped
  let newPart := ScriptM.act Sql.newPart
  match m with
  | name         => return .part (.name (as.text 0))
  | asName       => return .part (.asName (← newPart) (as.text 0))
  | source       => return .part (.source ⟨← newPart, as.text 0, as.textOr 1 ""⟩)
  | column       => return .part (.item (.column (← newPart) (as.text 0) (as.text 1) none))
  | titledColumn =>
    return .part (.item (.column (← newPart) (as.text 0) (as.text 1) (some (as.text 2))))
  | expression   =>
    let args ← as.items 0
    let before := as.textOr 2 ""
    let between := as.textOr 3 ", "
    return .part (.item (.expr (← newPart) args (as.textOr 1 "") before between))
  | cond         => return .part (.cond (← as.cond 0 1))
  | conds        => return .part (.conds (← newPart) [])
  | join         =>
    let conds ← match (as.get 2).item?, (as.get 3).item? with
      | some l, some r => pure [⟨← newPart, l, r⟩]
      | _, _           => pure []
    return .part (.join { part := ← newPart, table := as.text 0, asName := as.text 1, conds })
  | condSource   => return .part (.condSource ⟨← newPart, as.text 0, as.text 1⟩ (← as.cond 2 3))
  | query        => return .query (← ScriptM.act (Sql.Query.create (← bodyOf as) []))
  | operator     => return .operator (as.textOr 0 "") (as.textOr 1 "")
  | projection   => return .projection (as.get 0).items (as.get 1)
  | condition    => return .condition ⟨(as.get 0).toTerm, (as.get 1).terms, (as.get 2).toTerm⟩
  | dimension    => return .dimension ⟨(as.get 0).toTerm⟩
  | subject      => return .subject ⟨(as.get 0).toTerm, (as.get 1).terms⟩
  | denominator  => return .denominator ⟨(as.get 0).toTerm⟩

-- What can be asked of a part of a query.
inductive Ask where
  | isNamed
  | equals
  | statement
  | aliasName
  | bareColumn
  | renameTable
  | renameAlias
  | renameTables
  | replaceTable
  | isTrivial
  | addCond
  | addJoin
  | addWhere
  | freeze
  | dedup
  deriving DecidableEq, Repr

def Value.isLike (j : Sql.Join) : Value → ScriptM Bool
  | .part (.join k) => ScriptM.result (j.alike k)
  | .part p => do
    if (← ScriptM.need p.table?) == j.table then ScriptM.fail .absent else return false
  | _ => ScriptM.fail .absent

def Ask.of (m : Ask) (p : Sql.Part) (as : Arguments) : ScriptM (Value × Sql.Part) := do
  let change (x : Except Failure Sql.Part) : ScriptM (Value × Sql.Part) := do
    return (.null, ← ScriptM.result x)
  let same (v : Value) : ScriptM (Value × Sql.Part) := return (v, p)
  let both (q : Sql.Part) : ScriptM (Value × Sql.Part) := return (.part q, q)
  let old := (as.get 0).quoted
  let new := (as.get 1).quoted
  match m, p with
  | isNamed, .name s => same (.bool (!s.isEmpty))
  | equals, .name s => do same (.bool (s == (← ScriptM.result (as.get 0).name)))
  | equals, .item (.column ..) => do same (.bool ((← ScriptM.result p.text) == old))
  | equals, .join j => do same (.bool (← (as.get 0).isLike j))
  | statement, .query q =>
    if (as.get 1) matches .bool true then ScriptM.fail .absent
    else same (.str (← ScriptM.result (q.statements (.ofName (as.text 0)))))
  | statement, _ => do same (.str (← ScriptM.result (p.statement (.ofName (as.text 0)))))
  | aliasName, .source s | aliasName, .condSource s _ => same (.str s.name)
  | aliasName, .join j => same (.str j.toSource.name)
  | bareColumn, .item i => do same (.part (.item (← ScriptM.act i.bare)))
  | renameTable, .item (.column ..) | renameAlias, .source _ | renameAlias, .join _
  | renameAlias, .condSource .. | renameTables, .cond _ | renameTables, .conds .. =>
    change (p.rename old new)
  | renameTables, .join _ | renameTables, .condSource .. => change (p.renameConds old new)
  | replaceTable, .name _ | replaceTable, .asName .. => ScriptM.fail .absent
  | replaceTable, _ => do
    change (p.replaceTable (← ScriptM.result (as.get 0).name) (← ScriptM.result (as.get 1).name))
  | isTrivial, _ => do same (.bool (← ScriptM.result p.isTrivial))
  | addCond, _ => do both (← ScriptM.result (p.addCond (← as.cond 0 1)))
  | addJoin, .query q => do
    let j ← ScriptM.need (as.get 0).join?
    change do return .query { q with toBody := ← q.toBody.addJoin j }
  | addWhere, .query q => do
    let c ← ScriptM.need (as.get 0).cond?
    change do return .query { q with toBody := ← q.toBody.addWhere c }
  | freeze, .query q => do both (.query (← ScriptM.act q.freeze))
  | dedup, .query q => do both (.query (← ScriptM.result q.dedup))
  | _, _ => ScriptM.fail .absent

def ask (m : Ask) (v : Value) (as : Arguments) : ScriptM (Value × Value) := do
  match v with
  | .part p =>
    let (r, q) ← m.of p as
    ScriptM.changed q
    return (r, .part q)
  | v =>
    if m == .equals then return (.bool (← ScriptM.result (v.alike (as.get 0))), v)
    else ScriptM.fail .absent

end Script
end Inquiry
