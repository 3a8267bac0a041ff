import Inquiry.Request.Interpret
import Inquiry.Script.Scope

/-!
Calling functions of the library on values. Arguments are decoded and results encoded by their
types; only optional arguments may be left out.
-/

namespace Inquiry
namespace Script

class Decode (α : Type) where
  decode : Value → α

class Encode (α : Type) where
  encode : α → Value

export Decode (decode)
export Encode (encode)

instance : Decode Value := ⟨id⟩
instance : Decode Term := ⟨Value.toTerm⟩
instance : Decode Meaning := ⟨Value.toMeaning⟩
instance : Decode String := ⟨Value.text⟩
instance : Decode Bool := ⟨Value.isTrue⟩
instance : Decode Int := ⟨fun v => v.int?.getD 0⟩
instance : Decode Nat := ⟨fun v => (v.int?.getD 0).toNat⟩
instance : Decode (Option Term) := ⟨Value.term?⟩
instance : Decode (Option Int) := ⟨Value.int?⟩
instance : Decode (Option String) := ⟨Value.str?⟩
instance : Decode (Option Bool) := ⟨fun v => some v.isTrue⟩
instance : Decode (Option Value) := ⟨some⟩

instance [Decode α] : Decode (List α) := ⟨fun v => v.items.map decode⟩

instance [Decode κ] [Decode α] : Decode (List (κ × α)) :=
  ⟨fun
    | .dict es => es.map fun (k, v) => (decode k, decode v)
    | _        => []⟩

instance : Encode Value := ⟨id⟩
instance : Encode Term := ⟨Value.ofTerm⟩
instance : Encode Meaning := ⟨Value.ofMeaning⟩
instance : Encode String := ⟨.str⟩
instance : Encode Bool := ⟨.bool⟩
instance : Encode Int := ⟨.int⟩
instance : Encode Nat := ⟨fun n => .int n⟩
instance : Encode Unit := ⟨fun _ => .null⟩

instance : Encode (Option Nat) := ⟨fun n => .int (n.elim (-1) Int.ofNat)⟩

instance : Encode (Option Int) := ⟨fun n => .int (n.getD (-1))⟩

instance (priority := low) [Encode α] : Encode (Option α) := ⟨fun a => a.elim .null encode⟩

instance [Encode α] : Encode (List α) := ⟨fun xs => .list (xs.map encode)⟩

instance (priority := low) [Encode α] [Encode β] : Encode (α × β) :=
  ⟨fun (a, b) => .tuple [encode a, encode b]⟩

instance [Encode α] [Encode β] [Encode γ] : Encode (α × β × γ) :=
  ⟨fun (a, b, c) => .tuple [encode a, encode b, encode c]⟩

instance (priority := 2000) [Encode κ] [Encode α] : Encode (List (κ × α)) :=
  ⟨fun es => .dict (es.map fun (k, v) => (encode k, encode v))⟩

instance : Encode Request :=
  ⟨fun r => .tuple [encode r.meanings, encode r.keywords, encode r.tokens]⟩

instance : Encode Interpretation :=
  ⟨fun
    | .single t              => encode t
    | .ranking t key order _ => .list [encode t, encode key, .str order]⟩

class Callable (φ : Type) where
  call : φ → List Value → ScriptM Value

export Callable (call)

def finish (x : ScriptM Value) : List Value → ScriptM Value
  | []     => x
  | _ :: _ => ScriptM.fail .mistyped

instance (priority := low) [Encode α] : Callable α := ⟨fun a => finish (return encode a)⟩

instance [Encode α] : Callable (Except Failure α) :=
  ⟨fun x => finish (do return encode (← ScriptM.result x))⟩

instance [Encode α] : Callable (SessionM α) :=
  ⟨fun x => finish (do return encode (← ScriptM.act x))⟩

instance [Encode α] : Callable (ScriptM α) := ⟨fun x => finish (do return encode (← x))⟩

instance [Decode α] [Callable β] : Callable (α → β) :=
  ⟨fun f => fun
    | []      => ScriptM.fail .mistyped
    | v :: vs => call (f (decode v)) vs⟩

instance (priority := 2000) [Decode (Option α)] [Callable β] : Callable (Option α → β) :=
  ⟨fun f => fun
    | []      => call (f none) []
    | v :: vs => call (f (decode v)) vs⟩

instance (priority := 2000) [Callable β] : Callable (Request → β) :=
  ⟨fun f => fun
    | ms :: ks :: vs => call (f ⟨[], decode ms, decode ks⟩) vs
    | _              => ScriptM.fail .mistyped⟩

def tokensFirst (f : Request → List Value → ScriptM Value) : List Value → ScriptM Value
  | ts :: ms :: ks :: vs => f ⟨decode ts, decode ms, decode ks⟩ vs
  | _                    => ScriptM.fail .mistyped

def tokensLast (f : Request → List Value → ScriptM Value) : List Value → ScriptM Value
  | ms :: ks :: ts :: vs => f ⟨decode ts, decode ms, decode ks⟩ vs
  | _                    => ScriptM.fail .mistyped

end Script
end Inquiry
