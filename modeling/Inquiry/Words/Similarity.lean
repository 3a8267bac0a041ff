import Inquiry.Sequence

/-!
Words that are near to a given word: by the angle between their vectors, or else by their distance
as texts. Every two texts are ten changes apart, so that of the known words only a long one can be
near.
-/

namespace Inquiry

abbrev Vector := List Float

namespace Vector

def dot (u v : Vector) : Float :=
  (u.zip v).foldl (fun s (x, y) => s + x * y) 0

def direction (v : Vector) : Vector :=
  let n := (dot v v).sqrt
  if n == 0 then v else v.map (· / n)

def cosine? (u v : Vector) : Option Float :=
  if u.length == v.length then some (dot u.direction v.direction) else none

end Vector

-- The words that have a vector, and those among them that the domain knows.
structure WordVectors where
  words        : List String := []
  vectors      : List Vector := []
  known        : List String := []
  knownVectors : List Vector := []
  deriving Inhabited

namespace WordVectors

def greatest (le : α → α → Bool) : List α → Option (Nat × α)
  | []      => none
  | x :: xs =>
    match greatest le xs with
    | none        => some (0, x)
    | some (i, y) => if le y x then some (0, x) else some (i + 1, y)

def leastCosine : Float := 0.6

def nearestByAngle (v : WordVectors) (word : String) : Except Failure (Option String) := do
  let some i := v.words.findIdx? (· == word) | return none
  let u ← Sequence.get v.vectors i
  let some cosines := v.knownVectors.mapM (Vector.cosine? · u) | return none
  let some (j, c) := greatest (fun x y : Float => x ≤ y) cosines | return none
  if leastCosine ≤ c then some <$> Sequence.get v.known j else return none

def changes : Nat := 10

def isShare (length : Nat) : Bool :=
  100 * changes ≤ 35 * length

def nearestByText (v : WordVectors) (word : String) : Except Failure (Option String) := do
  let lengths := v.known.map fun w => max word.length w.length
  if lengths.contains 0 then throw .divisionByZero
  let some (i, n) := greatest (fun x y : Nat => x ≤ y) lengths | throw .badValue
  return if isShare n then v.known[i]? else none

def similar (v : WordVectors) (word : String) : Except Failure String := do
  if let some w ← v.nearestByAngle word then return w
  return (← v.nearestByText word).getD ""

end WordVectors
end Inquiry
