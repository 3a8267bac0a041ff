import Inquiry.Graph.Filling
import Inquiry.Script.Function

/-!
Nodes, edges and labels of a graph store, made out of values.
-/

namespace Inquiry
namespace Script

open Store

def detail (v : Option Value) : Option String :=
  v.bind fun v => if v.isTrue then some v.text else none

def nodeOf (name sort : String) (altname : Option Value) : Node :=
  ⟨name, sort, detail altname⟩

def edgeOf (name sort d ds c cs : String) (article code : Option Value) : EdgeSpec :=
  ⟨name, sort, ⟨d, ds⟩, ⟨c, cs⟩, detail article, detail code⟩

instance : Decode Label :=
  ⟨fun v =>
    let one : Value → Label := fun
      | .str s  => .text s
      | .term t => if t.isKind then .kind else .other
      | _       => .other
    match v with
    | .list vs => .list (vs.map one)
    | v        => one v⟩

def labelsOf (es : List (String × Value)) : List (String × (String ⊕ List String)) :=
  es.map fun
    | (k, .list vs) => (k, .inr (vs.map Value.text))
    | (k, v)        => (k, .inl v.text)

def labelBy (label : String → String → Label → StoreM Unit) (name : String) : Value → StoreM Unit
  | .list (k :: l :: _) | .tuple (k :: l :: _) => label name k.text (decode l)
  | .list _ | .tuple _ => throw .outOfRange
  | _ => throw .mistyped

end Script
end Inquiry
