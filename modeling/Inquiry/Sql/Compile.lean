import Inquiry.Sql.Change
import Inquiry.Session.Recall

/-!
Compiling terms to queries. An element becomes a query with a row for each member of its domain;
projections and operators become what they do to the query that they are composed with.
-/

namespace Inquiry
namespace Sql

-- Which results are kept as temporary tables, and whether equal ones are kept once.
structure Switches where
  freezeAll : Bool := false
  dedup     : Bool := true

-- What is compiled: the designs of the stored tables, the variable that rows are ordered by, and
-- the direction of the order.
structure Setting where
  designs  : List Term
  key      : Option Term := none
  order    : String := ""
  switches : Switches := {}

inductive Compiled where
  | query (q : Query)
  | operator (before between : String)
  | projection (dims : List Nat) (size : Nat)
  | nothing
  deriving Inhabited

def Compiled.asQuery : Compiled → SessionM Query
  | query q => return q
  | _       => throw .absent

def keyAlias : String := "keyc"

def get (xs : List α) (i : Nat) : SessionM α :=
  ofExcept (Sequence.get xs i)

def freezeGrouped (sw : Switches) : Compiled → SessionM Compiled
  | .query q =>
    if sw.freezeAll || q.groups.groupsRows || q.distinct then .query <$> q.freeze
    else return .query q
  | c => return c

def pickColumns (dims : List Nat) (rhs : Query) : SessionM Query := do
  let codomain ← dims.mapM fun i => get rhs.codomain i
  let aliases ← ofExcept (codomain.mapM Item.asName)
  if aliases.all (· != keyAlias) then
    return { rhs with codomain, orderBy := none, orderDir := "" }
  return { rhs with codomain }

def reverseOrder (dir : String) : String :=
  if dir == "asc" then "desc" else "asc"

def clearAlias (i : Item) (is : List Item) : List Item :=
  is.map fun k => if k.part == i.part then k.withAlias "" else k

def isKey (i : Item) : Except Failure Bool := do
  if (← i.name) == keyAlias then return true
  return (← i.asName) == keyAlias

def applyOperator (before between : String) (rhs : Query) : SessionM Query := do
  let args ← Item.copies rhs.codomain
  if rhs.orderBy.isSome then
    let first ← get args 0
    if ← ofExcept (isKey first) then
      let item := .expr (← newPart) (clearAlias first args) keyAlias before between
      return { rhs with codomain := [item] }
    let second ← get args 1
    if ← ofExcept (isKey second) then
      let item := .expr (← newPart) (clearAlias second args) keyAlias before between
      return { rhs with codomain := [item], orderDir := reverseOrder rhs.orderDir }
  return { rhs with codomain := [.expr (← newPart) args "" before between] }

def isSet (s : Option String) : Bool :=
  s.any (!·.isEmpty)

def outerOrder (lhs rhs : Query) : Option String × String :=
  if isSet lhs.orderBy then (lhs.orderBy, lhs.orderDir) else (rhs.orderBy, rhs.orderDir)

def isTemporary (table : String) : Bool :=
  "tmp".toList.isPrefixOf table.toList

def composeOne (lhs rhs : Query) : SessionM Query := do
  let some lhsSource := lhs.source | throw .absent
  let (orderBy, orderDir) := outerOrder lhs rhs
  let wheres := lhs.wheres ++ rhs.wheres
  let frozen := rhs.frozen ++ lhs.frozen
  let (joins, codomain) ←
    if lhsSource.table.isEmpty then pure (rhs.joins, lhs.codomain)
    else do
      let joinCod ← (← get rhs.codomain 0).bare
      let joinDom ← (← get lhs.domain 0).bare
      let codTable ← ofExcept joinCod.table
      let same := (← ofExcept joinCod.text) == (← ofExcept joinDom.text)
      let (asName, own) ←
        if same then pure (codTable, [])
        else if isTemporary lhsSource.table then
          pure (lhsSource.table, [← Join.create lhsSource.table "" [(joinDom, joinCod)]])
        else do
          let asName := codTable ++ "_" ++ (← ofExcept joinCod.name)
          let dom := match joinDom with
            | .column p _ n a => .column p asName n a
            | e               => e
          pure (asName, [← Join.create lhsSource.table asName [(dom, joinCod)]])
      let outer ← ofExcept (lhs.joins.mapM (Join.renameAlias lhsSource.table asName))
      let codomain ← ofExcept (renameTables lhsSource.table asName lhs.codomain)
      pure (rhs.joins ++ own ++ outer, codomain)
  Query.create
    { domain := rhs.domain, codomain, source := rhs.source, joins, wheres, orderBy, orderDir }
    frozen

def composeMany (lhs rhs : Query) : SessionM Query := do
  let lhs ← lhs.freeze
  let rhs ← rhs.freeze
  let pairs ← (lhs.domain.zip rhs.codomain).mapM fun (d, c) => return (← d.bare, ← c.bare)
  let some lhsSource := lhs.source | throw .absent
  let join ← Join.create lhsSource.table "" pairs
  let (orderBy, orderDir) := outerOrder lhs rhs
  Query.create
    { domain := rhs.domain, codomain := lhs.codomain, source := rhs.source, joins := [join]
      orderBy, orderDir }
    (rhs.frozen ++ lhs.frozen)

def composeTwo (lhs rhs : Compiled) : SessionM Compiled := do
  match lhs, rhs with
  | _, .projection .. => throw .mistyped
  | .projection dims _, _ => .query <$> (pickColumns dims (← rhs.asQuery))
  | .operator before between, _ => .query <$> applyOperator before between (← rhs.asQuery)
  | _, _ =>
    let l ← lhs.asQuery
    if l.domain.length == 1 then .query <$> composeOne l (← rhs.asQuery)
    else .query <$> composeMany l (← rhs.asQuery)

def composeReversed : List Compiled → SessionM Compiled
  | []               => throw .outOfRange
  | [c]              => return c
  | rhs :: lhs :: cs => do
    let c ← composeTwo lhs rhs
    foldLeft c cs
where
  foldLeft (rhs : Compiled) : List Compiled → SessionM Compiled
    | []        => return rhs
    | lhs :: cs => do foldLeft (← composeTwo lhs rhs) cs

def compose (cs : List Compiled) : SessionM Compiled :=
  composeReversed cs.reverse

def joinOn (joins : List (String × List (Item × Item))) (table : String) (pair : Item × Item) :
    List (String × List (Item × Item)) :=
  match joins with
  | []            => [(table, [pair])]
  | (t, ps) :: js => if t == table then (t, ps ++ [pair]) :: js else (t, ps) :: joinOn js table pair

def joinDomains (first : List Item) (joins : List (String × List (Item × Item))) (q : Query) :
    SessionM (List (String × List (Item × Item))) :=
  (q.domain.zip first).foldlM (fun joins (other, dim) => do
    let t ← ofExcept other.table
    if t == (← ofExcept dim.table) then return joins
    return joinOn joins t (← dim.bare, ← other.bare)) joins

def lastOrder (qs : List Query) : Option String × String :=
  qs.foldl (fun acc q => if q.orderBy.isSome then (q.orderBy, q.orderDir) else acc) (none, "")

def compileProduct (sw : Switches) (cs : List Compiled) : SessionM Compiled := do
  match cs with
  | .projection _ size :: _ =>
    let dims ← cs.mapM fun
      | .projection dims _ => return dims
      | _                  => throw .mixedProjections
    return .projection dims.flatten size
  | _ =>
    let qs ← (← cs.mapM (freezeGrouped sw)).mapM Compiled.asQuery
    let first ← get qs 0
    let new ← qs.tail.foldlM (joinDomains first.domain) []
    let joins ← new.mapM fun (t, pairs) => Join.create t "" pairs
    let (orderBy, orderDir) := lastOrder qs
    .query <$> Query.create
      { domain := first.domain, codomain := qs.flatMap (·.codomain), source := first.source,
        joins := joins ++ qs.flatMap (·.joins), wheres := qs.flatMap (·.wheres),
        groups := first.groups, orderBy, orderDir }
      (qs.flatMap (·.frozen))

def pairConds : List Query → SessionM (List Cond)
  | l :: r :: qs => do
    let conds ← (l.codomain.zip r.codomain).mapM fun (a, b) => do
      return { part := ← newPart, lhs := a, rhs := b }
    return conds ++ (← pairConds qs)
  | _ => return []

def compileInclusion (sw : Switches) (cs : List Compiled) : SessionM Compiled := do
  let qs ← (← cs.mapM (freezeGrouped sw)).mapM Compiled.asQuery
  let first ← get qs 0
  let joins ← qs.tail.mapM fun q => do
    let dim ← get q.domain 0
    let own ← get first.domain 0
    let t ← ofExcept dim.table
    if t == (← ofExcept own.table) then return []
    return [← Join.create t "" [(← own.bare, ← dim.bare)]]
  let codomain ← Item.copies first.domain
  let conds ← pairConds qs
  .query <$> Query.create
    { domain := first.domain, codomain, source := first.source,
      joins := joins.flatten ++ qs.flatMap (·.joins), wheres := first.wheres ++ conds }
    (qs.flatMap (·.frozen))

def compileInverse (sw : Switches) (cs : List Compiled) : SessionM Compiled := do
  let qs ← cs.mapM (freezeGrouped sw)
  let q ← (← get qs 0).asQuery
  let domain ← Item.copies q.codomain
  let codomain ← Item.copies q.codomain
  .query <$> Query.create
    { domain, codomain, source := q.source, joins := q.joins, wheres := q.wheres, distinct := true,
      orderBy := q.orderBy, orderDir := q.orderDir }
    q.frozen

def compileAggregation (sw : Switches) (cs : List Compiled) : SessionM Compiled := do
  let qs ← cs.mapM (freezeGrouped sw)
  let w ← (← get qs 1).asQuery
  let v ← (← get qs 0).asQuery
  let vDim ← get v.domain 0
  let vTable ← ofExcept vDim.table
  let joins ←
    if vTable.isEmpty then pure []
    else do
      let wDim ← get w.domain 0
      let wTable ← ofExcept wDim.table
      if wTable.isEmpty || vTable == wTable then pure []
      else pure [← Join.create vTable "" [(← vDim.bare, ← wDim.bare)]]
  let codomain ← v.codomain.mapM fun i => do
    let col ← i.bare
    return .expr (← newPart) [col] (i.asName?.getD "") "SUM" "%s"
  let grouped ← ofExcept (w.codomain.filterM fun i => return !(← i.table).isEmpty)
  let columns ← grouped.mapM Item.bare
  .query <$> Query.create
    { domain := w.codomain, codomain, source := w.source, joins := joins ++ v.joins ++ w.joins,
      wheres := v.wheres ++ w.wheres, groups := if columns.isEmpty then .whole else .by columns,
      orderBy := v.orderBy, orderDir := v.orderDir }
    (v.frozen ++ w.frozen)

def width : Term → Nat
  | .app _ _ args _ => widths args
  | _               => 1
where
  widths : List Term → Nat
    | []      => 0
    | t :: ts => width t + widths ts

def projectionColumns (types : List Term) (k : Int) : Option (List Nat) × Nat :=
  let step (acc : Option (List Nat) × Nat) (t : Term × Nat) :=
    let next := acc.2 + width t.1
    (if (t.2 : Int) == k - 1 then some ((List.range (width t.1)).map (acc.2 + ·)) else acc.1, next)
  types.zipIdx.foldl step (none, 0)

def compileProjection (args : List Term) : SessionM Compiled :=
  match args.getLast?.bind Term.position? with
  | none   => throw .mistyped
  | some k =>
    match projectionColumns args.dropLast k with
    | (some dims, size) => return .projection dims size
    | (none, _)         => throw .unassigned

def mentions (name : String) : Term → Bool
  | .app _ _ args _ => mentionsAny args
  | .kind h ..      =>
    (h.cls == .variable || h.cls == .constant || h.cls == .objectTypeRelation) && h.name == name
  | _               => false
where
  mentionsAny : List Term → Bool
    | []      => false
    | t :: ts => mentions name t || mentionsAny ts

def findDesign (designs : List Term) (name : String) : Option Term :=
  designs.find? fun d => d.constr?.any (mentions name)

def tableOf (r : Setting) (name : String) : String :=
  ((findDesign r.designs name).getD .nothing).printed

def identifierColumn (table : String) : String :=
  table ++ "_id"

def storedColumn (table column asName : String) (orderBy : Option String) (orderDir : String) :
    SessionM Query := do
  let dom ← Item.create table (identifierColumn table) ""
  let cod ← Item.create table column asName
  let source : Source := { part := ← newPart, table }
  Query.create { domain := [dom], codomain := [cod], source := some source, orderBy, orderDir } []

def compileRelation (r : Setting) (h : KindHead) : SessionM Query :=
  let column := Text.underscored h.name
  storedColumn (tableOf r column) column "" none ""

def compileImmediate (r : Setting) (t : Term) (value : String) (isKey : Bool) : SessionM Query := do
  let (domain, source) ← match ← ofExcept t.domain? with
    | some (.kind h ..) =>
      if h.cls == .objectType then do
        let dom ← Item.create h.name (identifierColumn h.name) ""
        pure ([dom], some { part := ← newPart, table := h.name : Source })
      else pure ([], none)
    | _ => pure ([], none)
  let cod ← Item.create "" value (if isKey then keyAlias else "")
  Query.create
    { domain, codomain := [cod], source
      orderBy := if isKey then some keyAlias else none, orderDir := r.order } []

def isCounting (name : String) : Bool :=
  "een".toList.isPrefixOf name.toList

def compileVariable (r : Setting) (t : Term) (h : KindHead) : SessionM Query := do
  let codName ← ofExcept (do (← t.codomain).name)
  let isKey := r.key.any fun k => k.equals t
  if codName == "1" then compileImmediate r t "'*'" isKey
  else if isCounting h.name then compileImmediate r t "1" isKey
  else
    let asName := if isKey then keyAlias else ""
    storedColumn (tableOf r h.name) (Text.underscored h.name) asName
      (if isKey then some keyAlias else none) r.order

def compileConstant (h : KindHead) : SessionM Query := do
  let some code := h.code | throw .mistyped
  let dom ← Item.create "" "'*'" ""
  let cod ← Item.create "" ("'" ++ Text.underscored code ++ "'") ""
  let source : Source := { part := ← newPart, table := "" }
  Query.create { domain := [dom], codomain := [cod], source := some source } []

def compileOperator (h : KindHead) : Compiled :=
  if h.name == "(/)" then .operator "" "(1.0 * %s) / %s" else .nothing

def compileKind (r : Setting) (t : Term) (h : KindHead) : SessionM Compiled :=
  if h.cls == .variable then .query <$> compileVariable r t h
  else if h.cls.isRelation then .query <$> compileRelation r h
  else if h.cls == .constant then .query <$> compileConstant h
  else if h.cls == .operator then return compileOperator h
  else return .nothing

def compileTerm (r : Setting) : Term → SessionM Compiled
  | .app _ op args _ =>
    match op with
    | .projection  => compileProjection args
    | .composition => do compose (← (← compileAll args).mapM (freezeGrouped r.switches))
    | .product     => do compileProduct r.switches (← compileAll args)
    | .inclusion   => do compileInclusion r.switches (← compileAll args)
    | .inverse     => do compileInverse r.switches (← compileAll args)
    | .aggregation => do compileAggregation r.switches (← compileAll args)
    | _            => return .nothing
  | t@(.kind h ..) => compileKind r t h
  | _ => return .nothing
where
  compileAll : List Term → SessionM (List Compiled)
    | []      => return []
    | t :: ts => return (← compileTerm r t) :: (← compileAll ts)

def compile (r : Setting) (t : Term) : SessionM Query := do
  modify fun s => { s with tables := 0 }
  let q ← (← compileTerm r t).asQuery
  if r.switches.dedup then ofExcept q.dedup else return q

end Sql
end Inquiry
