import Inquiry.Term.Basic

/-!
Equality of terms: kinds and gaps go by their identifier, applications by operation and arguments.
-/

namespace Inquiry
namespace Term

def equals : Term → Term → Bool
  | kind h .., kind h' ..              => h.id == h'.id
  | gap h _, gap h' _                  => h.id == h'.id
  | app _ op args _, app _ op' args' _ => op == op' && equalsList args args'
  | number n, u                        => u.position? == some n
  | flag b, u                          => u.position? == some (if b then 1 else 0)
  | _, _                               => false
where
  equalsList : List Term → List Term → Bool
    | [], []           => true
    | t :: ts, u :: us => t.equals u && equalsList ts us
    | _, _             => false

end Term
end Inquiry
