import Inquiry.Json.Writer
import Inquiry.Script.Value
import Inquiry.Session.Recall

/-!
Kinds and designs written as JSON. A kind is written with its class and name, an element with its
ends as well. Reading makes new kinds; both ends of an element are read from its domain.
-/

namespace Inquiry
namespace Term

def headJson (cls name : String) : List (String × Json) :=
  [("kind", .str cls), ("name", .str name)]

def toJson : Term → Except Failure Json
  | kind h _ domain codomain _ =>
    if h.cls.isType then .ok (.obj (headJson h.cls.label h.name))
    else do
      let c ← endJson codomain
      let d ← if h.cls == .constant then .ok (.obj (headJson "One" "1")) else endJson domain
      return .obj (headJson h.cls.label h.name ++ [("domain", d), ("codomain", c)])
  | gap h _ => .ok (.obj (headJson "Gap" h.name))
  | _ => .error .absent
where
  endJson : Option Term → Except Failure Json
    | some t => t.toJson
    | none   => .error .absent

def toJsonText (t : Term) : Except Failure String :=
  (·.render Json.spaced) <$> t.toJson

def nameOf (x : Except Failure (Option Term)) : Except Failure Json := do
  let some t ← x | throw .absent
  return .str (← t.name)

def operandJson (t : Term) : Except Failure Json := do
  return .obj
    [("name", .str (← t.name)), ("domain", ← nameOf t.domain?), ("codomain", ← nameOf t.codomain?)]

def designJson (t : Term) : Except Failure Json := do
  let name ← t.name
  let some (.app _ op args _) := t.constr? | throw .absent
  let operands ← args.mapM operandJson
  return .obj
    [("name", .str name),
     ("constr", .obj
       [("construction_type", .str "Application"),
        ("arguments", .obj [("operator", .str op.label), ("operands", .arr operands)])])]

def designFile (t : Term) : Except Failure (String × String) := do
  return ((← t.name) ++ "data.json", (← t.designJson).render Json.spaced)

end Term

def Text.withoutHardBlanks (s : String) : String :=
  s.replace "\\u00a0" ""

def Json.requoted (v : Json) : String :=
  ((Script.Value.ofJson v).text).replace "'" "\""

namespace SessionM

def readKind : Nat → String → SessionM Term
  | 0, _ => throw .malformedJson
  | fuel + 1, s => do
    let v ← ofExcept (Json.parse (Text.withoutHardBlanks s))
    let .obj _ := v | throw .mistyped
    let some sort := v.get? "kind" | throw .noKey
    let some name := v.get? "name" | throw .noKey
    let name := (Script.Value.ofJson name).text
    match sort.str?.bind KindClass.ofLabel? with
    | none     => return .nothing
    | some cls =>
      if cls.isType then
        if cls == .one || cls == .codeList then return .nothing else make { cls, name }
      else
        let some d := v.get? "domain" | throw .noKey
        let domain ← readKind fuel d.requoted
        let codomain ← readKind fuel d.requoted
        if built cls then
          make { cls, name, domain := Term.present domain, codomain := Term.present codomain }
        else return .nothing

def kindOfText (s : String) : SessionM Term :=
  readKind (s.length + 1) s

end SessionM

def Term.byName (ks : List Term) : Except Failure (Assoc String Term) :=
  ks.foldlM (fun m k => do return Assoc.put (← k.name) k m) []

end Inquiry
