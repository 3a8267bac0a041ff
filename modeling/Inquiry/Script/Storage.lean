import Inquiry.Script.Scope

/-!
Storing kinds from a script and restoring them: the kinds that are used are kept, and a kind that
was restored is renewed in every value.
-/

namespace Inquiry
namespace Script
namespace ScriptM

def structureOf (t : Term) : ScriptM (Markup.Element × Uses) := do
  let (r, w) := (ExceptT.run (Term.structureOfKind t)).run { uses := ← usesOf t }
  setUses t w.uses
  return (← result r, w.uses)

def use (t k : Term) : ScriptM Uses := do
  if !t.isKind || (Uses.ident? k).isNone then fail .absent
  let u := (← usesOf t).add k
  setUses t u
  return u

def restore (t : Term) (root : Markup.Element) : ScriptM Term := do
  unless t.isKind do fail (if t.serial?.isSome then .mistyped else .absent)
  let n ← act (SessionM.serials 0)
  let (r, w) := (ExceptT.run (Term.restore (← usesOf t) root)).run { subject := t, next := n }
  mapValues (Value.renew w.subject)
  modify fun e => { e with session := { e.session with next := w.next } }
  discard (result r)
  return w.subject

end ScriptM

def cleared : Term → Term
  | .kind h _ d c _ => .kind h none d c none
  | t               => t

end Script
end Inquiry
