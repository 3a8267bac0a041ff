import Inquiry.Script.Function
import Inquiry.Sql.Compile

/-!
Values as parts of queries, and parts that change while values hold them.
-/

namespace Inquiry
namespace Script

namespace Value

def query (q : Sql.Query) : Value :=
  part (.query q)

def item? : Value → Option Sql.Item
  | part (.item i) => some i
  | _              => none

def source? : Value → Option Sql.Source
  | part (.source s) => some s
  | part (.join j)   => some j.toSource
  | _                => none

def join? : Value → Option Sql.Join
  | part (.join j) => some j
  | _              => none

def cond? : Value → Option Sql.Cond
  | part (.cond c) => some c
  | _              => none

def compiled : Value → Sql.Compiled
  | part (.query q)  => .query q
  | operator a b     => .operator a b
  | projection ds n  => .projection (decode (list ds)) (decode n)
  | _                => .nothing

def name : Value → Except Failure String
  | part (.name s) => .ok s
  | term t         => t.name
  | _              => .error .absent

def viewQuery (q : Sql.Query) : Except Failure Json := do
  return .obj [("repr", .str (← q.text)), ("mysql", .str (← q.statements .mySql)),
    ("tsql", .str (← q.statements .tSql))]

end Value

instance : Decode Sql.Compiled := ⟨Value.compiled⟩
instance : Encode Sql.Query := ⟨Value.query⟩
instance : Encode Sql.Compiled :=
  ⟨fun
    | .query q         => Value.query q
    | .operator a b    => .operator a b
    | .projection ds n => .projection (ds.map encode) (encode n)
    | .nothing         => .null⟩

def onQueries (f : Sql.Query → Sql.Query → SessionM Sql.Query) (l r : Sql.Compiled) :
    SessionM Sql.Query := do
  f (← l.asQuery) (← r.asQuery)

namespace ScriptM

def need : Option α → ScriptM α
  | some a => return a
  | none   => fail .absent

def item (v : Value) : ScriptM Sql.Item :=
  need v.item?

def changed (p : Sql.Part) : ScriptM Unit :=
  mapValues (Value.renewPart p)

def freezeAll (vs : List Value) : ScriptM Unit :=
  vs.forM fun v => do
    if let .query q ← act (Sql.freezeGrouped ⟨false, true⟩ v.compiled) then changed (.query q)

end ScriptM
end Script
end Inquiry
