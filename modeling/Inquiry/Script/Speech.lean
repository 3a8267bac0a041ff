import Inquiry.Document.Marking
import Inquiry.Domain.Basic
import Inquiry.Script.Function
import Inquiry.Words.Reading
import Inquiry.Words.Similarity

/-!
Values as words, lexicons and vectors, and readings as values.
-/

namespace Inquiry
namespace Script

instance : Decode Phrase :=
  ⟨fun
    | .list vs | .tuple vs => .group (vs.map Value.text)
    | v                    => .text v.text⟩

instance : Encode Phrase :=
  ⟨fun
    | .text s   => .str s
    | .group ws => .tuple (ws.map .str)⟩

instance : Decode Float := ⟨fun v => Float.ofInt (v.int?.getD 0)⟩

instance : Encode Reading :=
  ⟨fun r => .tuple [encode r.tokens, encode r.synonyms, encode r.meanings, encode r.keywords]⟩

def splitNameOf : Value → Except Failure Value
  | .dict es =>
    match Assoc.get? es (.str "name") with
    | some (.str s)   => .ok (.dict (Assoc.put (.str "name") (encode (Document.splitName s)) es))
    | some (.list vs) =>
      if vs.contains (.str Document.separator) then .error .absent else .ok (.dict es)
    | some _          => .error .mistyped
    | none            => .error .noKey
  | _ => .error .mistyped

def kept (d : Domain) : List Value :=
  let n (k : Nat) : Value := .int k
  [n d.lexicon.length, n d.kinds.length, n d.preferred.length, n d.defaults.length,
   n d.override.length, n d.aggregation.length, n d.vocab.length, n d.pronouns.length,
   n d.whichWay.length, n d.helpers.length, n d.orientation.length, n d.ordering.length,
   n d.designs.length, encode d.number, encode d.quotient, encode Term.one,
   n d.counting.length, n d.together.length]

end Script
end Inquiry
