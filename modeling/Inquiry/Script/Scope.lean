import Inquiry.Script.Value
import Inquiry.Session.Recall

/-!
Where a script runs: a session, the values that names are bound to, and the kinds that each kind is
said to use. A step that fails leaves its name unbound and what it did before stays done.
-/

namespace Inquiry
namespace Script

structure Scope where
  session : Session
  values  : Assoc String Value := []
  uses    : Assoc Nat Uses := []

inductive Fault where
  | failure (f : Failure)
  | unbound

abbrev ScriptM := ExceptT Fault (StateM Scope)

namespace ScriptM

def fail (f : Failure) : ScriptM α :=
  throw (.failure f)

def result : Except Failure α → ScriptM α
  | .ok a    => return a
  | .error f => fail f

def act (x : SessionM α) : ScriptM α := do
  let e ← get
  let (r, session) := x.runIn e.session
  set { e with session }
  result r

def value (name : String) : ScriptM Value := do
  match Assoc.get? (← get).values name with
  | some v => return v
  | none   => throw .unbound

def usesOf (t : Term) : ScriptM Uses := do
  return (Assoc.get? (← get).uses (t.serial?.getD 0)).getD []

def setUses (t : Term) (u : Uses) : ScriptM Unit :=
  modify fun e => { e with uses := Assoc.put (t.serial?.getD 0) u e.uses }

def mapValues (f : Value → Value) : ScriptM Unit :=
  modify fun e => { e with values := e.values.map fun (x, v) => (x, f v) }

def eval : Json → ScriptM Value
  | .str s =>
    match s.toList with
    | '@' :: r => Value.ofTerm <$> act (SessionM.kindNamed (.ofList r))
    | '$' :: r => value (.ofList r)
    | '=' :: r => return .str (.ofList r)
    | _        => return .str s
  | .arr xs => .list <$> evalList xs
  | .obj [("tuple", .arr xs)] => .tuple <$> evalList xs
  | .obj [("d", .arr es)] => Value.ofEntries <$> evalEntries es
  | .obj [("obj", x)] | .obj [("Model", x)] => return .ofJson x
  | .obj [("Name", x)] => return .part (.name (Value.ofJson x).text)
  | j => return .ofJson j
where
  evalList : List Json → ScriptM (List Value)
    | []      => return []
    | x :: xs => do return (← eval x) :: (← evalList xs)
  evalEntries : List Json → ScriptM (List (Value × Value))
    | []                  => return []
    | .arr [k, v] :: es   => do
      let k ← eval k
      let v ← eval v
      return (k, v) :: (← evalEntries es)
    | _ :: _              => fail .mistyped

/-! Fields of a step as values -/

def arg (j : Json) (name : String) : ScriptM Value :=
  eval (j.field name)

def termArg (j : Json) (name : String) : ScriptM Term :=
  Value.toTerm <$> arg j name

def optArg (j : Json) (name : String) : ScriptM (Option Term) :=
  Value.term? <$> arg j name

def strArg (j : Json) (name : String) : ScriptM (Option String) :=
  Value.str? <$> arg j name

def intArg (j : Json) (name : String) : ScriptM (Option Int) :=
  Value.int? <$> arg j name

def listArg (j : Json) (name : String) : ScriptM (List Value) :=
  Value.items <$> arg j name

def step (name : Option String) (view : Fault → Json) (x : ScriptM (Json × Value)) :
    StateM Scope Json := do
  let (r, e) := (ExceptT.run x).run (← get)
  let bind (v : Option Value) : Scope :=
    match name with
    | none   => e
    | some n =>
      let rest := e.values.filter (·.1 != n)
      { e with values := v.elim rest fun v => (n, v) :: rest }
  match r with
  | .ok (out, v) => set (bind (some v)); return out
  | .error f     => set (bind none); return view f

end ScriptM
end Script
end Inquiry
