import Mathlib
import Inquiry.Words.Lexicon

/-!
Cutting a request into fragments. The fragments make up the request, and each of them is the longest
one at its place that the lexicon has an entry for, or a single word where there is no such fragment.
-/

namespace Inquiry

open List

namespace Text

end Text

namespace Words

-- Fragments with what they stand for, as the lexicon finds them in a row of words.
inductive Greedy (l : Lexicon) : List String → List (String × Meaning) → Prop
  | nil : Greedy l [] []
  | entry {ws : List String} {n : Nat} {m : Meaning} {ps : List (String × Meaning)}
      (pos     : 0 < n ∧ n ≤ ws.length)
      (known   : l.text? (" ".intercalate (ws.take n)) = some m)
      (longest : ∀ k, n < k → k ≤ ws.length → l.text? (" ".intercalate (ws.take k)) = none)
      (rest    : Greedy l (ws.drop n) ps) :
      Greedy l ws ((" ".intercalate (ws.take n), m) :: ps)
  | word {w : String} {ws : List String} {ps : List (String × Meaning)}
      (unknown : ∀ k, 0 < k → k ≤ ws.length + 1 → l.text? (" ".intercalate ((w :: ws).take k)) = none)
      (rest    : Greedy l ws ps) :
      Greedy l (w :: ws) ((w, .nothing) :: ps)

variable {l : Lexicon} {ws : List String} {ps : List (String × Meaning)}

theorem Greedy.nil_iff (h : Greedy l ws ps) : ps.map (·.1) = [] ↔ ws = [] := by
  cases h
  case nil             => simp
  case entry pos _ _ _ => simpa using ne_nil_of_length_pos (pos.left.trans_le pos.right)
  case word            => simp

theorem intercalate_cons {xs ys fs : List String} (hx : xs ≠ []) (hf : fs = [] ↔ ys = [])
    (h : " ".intercalate fs = " ".intercalate ys) :
    " ".intercalate (" ".intercalate xs :: fs) = " ".intercalate (xs ++ ys) := by
  by_cases hy : ys = []
  case pos => simp [hy, hf.mpr hy]
  case neg =>
    rw [String.intercalate_cons_of_ne_nil (mt hf.mp hy), h, String.intercalate_append_of_ne_nil hx hy]

theorem Greedy.joined (h : Greedy l ws ps) : " ".intercalate (ps.map (·.1)) = " ".intercalate ws := by
  induction h
  case nil => rfl
  case entry ws n _ ps pos _ _ rest ih =>
    have hne : ws.take n ≠ [] := ne_nil_of_length_pos (by simp; omega)
    simpa using intercalate_cons hne rest.nil_iff ih
  case word w ws ps _ rest ih =>
    simpa using intercalate_cons (cons_ne_nil w []) rest.nil_iff ih

-- A request in small letters and without marks.
def plain (s : String) : String :=
  Text.lower (String.ofList (s.toList.filter (· ∉ "?.!/;:,\n".toList)))

end Words
end Inquiry
