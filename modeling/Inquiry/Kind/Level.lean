import Inquiry.Term.Basic

/-!
Levels of a classification: lists of categories, each made of atoms.
-/

namespace Inquiry
namespace Category

def span (c : Category) : List String :=
  if c.atoms.isEmpty then [c.name] else c.atoms

def includes (c d : Category) : Bool :=
  d.span.all fun a => c.span.contains a

def atoms_sorted (cs : List Category) : List String :=
  (cs.flatMap span).mergeSort (· ≤ ·)

def equalSpan (cs ds : List Category) : Bool :=
  atoms_sorted cs == atoms_sorted ds

def finer (cs ds : List Category) : Bool :=
  cs.all fun c => ds.any fun d => d.includes c

end Category

namespace Term

def categories? : Term → Option (List Category)
  | kind h .. => if h.cls == .codeList || h.cls == .level then some h.categories else none
  | _         => none

end Term
end Inquiry
