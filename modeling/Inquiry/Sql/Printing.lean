import Inquiry.Sql.Basic
import Inquiry.Text.Basic

/-!
The text of queries. A plain text shows the temporary tables and the query one after the other;
statements are written for a dialect, each followed by an empty line.
-/

namespace Inquiry
namespace Sql

inductive Dialect where
  | mySql
  | tSql
  | other
  deriving DecidableEq, Repr, Inhabited

def Dialect.ofName (s : String) : Dialect :=
  if s == "MySQL" then mySql else if s == "T-SQL" then tSql else other

def aliasText (asName : String) : String :=
  if asName.isEmpty then "" else " AS " ++ asName

namespace Item

def text : Item → Except Failure String
  | column _ t n a =>
    .ok ((if t.isEmpty then n else t ++ "." ++ n) ++ a.elim "" aliasText)
  | expr _ args a before between =>
    match args with
    | [] => .ok ""
    | arg :: more =>
      if more.isEmpty && before.isEmpty then return (← arg.text) ++ aliasText a
      else do
        let first ← arg.text
        let others ← textsOf more
        let inner ← Text.fill between.toList (first :: others)
        return before ++ "(" ++ inner ++ ")" ++ aliasText a
where
  textsOf : List Item → Except Failure (List String)
    | []      => .ok []
    | i :: is => return (← i.text) :: (← textsOf is)

end Item

namespace Cond

def text (c : Cond) : Except Failure String :=
  return "(" ++ (← c.lhs.text) ++ " = " ++ (← c.rhs.text) ++ ")"

def isTrivial (c : Cond) : Except Failure Bool :=
  return (← c.lhs.text) == (← c.rhs.text)

end Cond

namespace Source

def text (s : Source) : String :=
  if s.asName.isEmpty || s.table == s.asName then s.table
  else if s.table.isEmpty then ""
  else s.table ++ aliasText s.asName

def name (s : Source) : String :=
  if s.asName.isEmpty then s.table else s.asName

end Source

namespace Join

def condsText (j : Join) : Except Failure String :=
  return String.intercalate " AND " (← j.conds.mapM Cond.text)

def text (j : Join) : Except Failure String :=
  return j.toSource.text ++ " ON " ++ (← j.condsText)

def isTrivial (j : Join) : Except Failure Bool :=
  j.conds.allM Cond.isTrivial

end Join

def joinTexts (sep : String) (texts : List String) : String :=
  texts.foldl (fun acc t => if acc.isEmpty then t else acc ++ sep ++ t) ""

namespace Body

def columnsText (b : Body) : Except Failure String :=
  return joinTexts ", " (← b.items.mapM Item.text)

def joinsText (b : Body) : Except Failure String :=
  return String.join (← b.joins.mapM fun j => return "\nJOIN " ++ (← j.text))

def wheresText (b : Body) : Except Failure String := do
  match ← b.wheres.mapM Cond.text with
  | []    => return ""
  | texts => return "\nWHERE " ++ String.intercalate " AND " texts

def groupsText (b : Body) : Except Failure String := do
  match ← b.groups.columns.mapM Item.text with
  | []    => return ""
  | texts => return "\nGROUP BY " ++ String.intercalate ", " texts

def directionText (b : Body) : String :=
  if b.orderDir == "desc" then "DESC" else "ASC"

def distinctText (b : Body) : String :=
  if b.distinct then "DISTINCT " else ""

def text (b : Body) : Except Failure String := do
  let columns ← b.columnsText
  let joins ← b.joinsText
  let source := match b.source with
    | none   => "None"
    | some s => s.text
  let fromText := if source.isEmpty then "" else "\nFROM " ++ source
  let wheres ← b.wheresText
  let groups ← b.groupsText
  let order := match b.orderBy with
    | none     => ""
    | some key => "\nORDER BY " ++ key ++ " " ++ b.directionText ++ " LIMIT 5"
  return "SELECT " ++ b.distinctText ++ columns ++ fromText ++ joins ++ wheres ++ groups ++ order
    ++ "\n"

def statement (d : Dialect) (table : Option String) (b : Body) : Except Failure String := do
  let (create, into) := match table with
    | none   => ("", "")
    | some t =>
      if d == Dialect.mySql then ("CREATE TEMPORARY TABLE " ++ t ++ "\n", "")
      else ("", " INTO " ++ t)
  let columns ← b.columnsText
  let joins ← b.joinsText
  let source ← match b.source with
    | none   => .error .absent
    | some s => .ok s.text
  let fromText := if source.isEmpty then "" else "\nFROM " ++ source
  let wheres ← b.wheresText
  let groups ← b.groupsText
  let order := match b.orderBy with
    | none     => ""
    | some key => "\nORDER BY " ++ key ++ " " ++ b.directionText
  let (limit, top) :=
    if b.orderBy.isNone then ("", "")
    else if d == Dialect.mySql then (" LIMIT 5", "")
    else ("", "TOP 5 ")
  return create ++ "SELECT " ++ b.distinctText ++ top ++ columns ++ into ++ fromText ++ joins
    ++ wheres ++ groups ++ order ++ limit ++ "\n\n"

end Body

namespace Query

def text (q : Query) : Except Failure String := do
  let tables ← q.frozen.mapM fun f =>
    return "CREATE TEMPORARY TABLE " ++ f.table ++ "\n" ++ (← f.toBody.text)
  return String.join tables ++ (← q.toBody.text)

def statements (d : Dialect) (q : Query) : Except Failure String := do
  let tables ← q.frozen.mapM fun f => f.toBody.statement d (some f.table)
  let all := String.join tables ++ (← q.toBody.statement d none)
  if d == .tSql then return String.ofList (Text.markNumbered "tmp".toList ['#'] all.toList)
  else return all

end Query
end Sql
end Inquiry
