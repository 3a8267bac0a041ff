import Inquiry.Request.Keyword
import Inquiry.Request.Meaning

/-!
Words that stand for a variable with a direction of sorting, such as "oldest". Before each of them a
word of comparison is put, and the variable alone is left. This is done in place, or along the way
into new lists.
-/

namespace Inquiry
namespace Words

-- The three lists of a request as they are read: tokens, meanings and keywords.
abbrev Columns := List String × List Meaning × List String

def comparison : Meaning → List (String × String)
  | .text "asc"  => [("kleinste", Keyword.smallest)]
  | .text "desc" => [("grootste", Keyword.greatest)]
  | _            => []

def insertFrom (i : Nat) (ts ks : List String) (ms : List Meaning) : Except Failure Columns :=
  if ks.length ≤ i then .ok (ts, ms, ks)
  else match ms with
    | []                     => .error .outOfRange
    | .list (m :: d :: _) :: rest => do
      let put (xs : List String) (ys : List String) :=
        ys.foldl (fun xs y => Sequence.insertAt xs i y) xs
      let (ts, ms, ks) ← insertFrom (i + 1) (put ts ((comparison d).map (·.1)))
        (put ks ((comparison d).map (·.2))) (m :: rest)
      return (ts, .nothing :: ms, ks)
    | .list _ :: _           => .error .outOfRange
    | m :: rest              => do
      let (ts, ms, ks) ← insertFrom (i + 1) ts ks rest
      return (ts, m :: ms, ks)
termination_by sizeOf ms

def insertOrder (ts : List String) (ms : List Meaning) (ks : List String) :
    Except Failure Columns :=
  insertFrom 0 ts ks ms

def splitOrder : Meaning → Except Failure (List (String × String) × List Meaning × Meaning)
  | .list (m :: d :: _) => .ok (comparison d, [.nothing], m)
  | .list _             => .error .outOfRange
  | m                   => .ok ([], [], m)

def withOrder : List String → List Meaning → List String → Except Failure Columns
  | _, _, [] => .ok ([], [], [])
  | _, [], _ :: _ => .error .outOfRange
  | ts, m :: ms, k :: ks => do
    let (words, gap, m) ← splitOrder m
    let t :: ts := ts | throw .outOfRange
    let (ts, ms, ks) ← withOrder ts ms ks
    return (words.map (·.1) ++ t :: ts, gap ++ m :: ms, words.map (·.2) ++ k :: ks)

def withoutOrder (n : Nat) (ms : List Meaning) : List Meaning :=
  (ms.take n).map (fun
    | .list (m :: _) => m
    | m              => m) ++ ms.drop n

end Words
end Inquiry
