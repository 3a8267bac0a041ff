/-!
Blank characters, and the words and lines that they divide a text into. A word holds no blank, and
each line but the last one ends in a line break.
-/

namespace Inquiry
namespace Text

def isBlank (c : Char) : Bool :=
  let n := c.toNat
  (9 ≤ n && n ≤ 13) || (28 ≤ n && n ≤ 32) || n == 0x85 || n == 0xA0 || n == 0x1680
    || (0x2000 ≤ n && n ≤ 0x200A) || n == 0x2028 || n == 0x2029 || n == 0x202F || n == 0x205F
    || n == 0x3000

def splitAt (p : Char → Bool) : List Char → List (List Char)
  | []      => [[]]
  | c :: cs =>
    if p c then [] :: splitAt p cs
    else match splitAt p cs with
      | []      => [[c]]
      | w :: ws => (c :: w) :: ws

def pieces (c : Char) (s : String) : List String :=
  (splitAt (· == c) s.toList).map String.ofList

def words (s : String) : List String :=
  ((splitAt isBlank s.toList).filter (!·.isEmpty)).map String.ofList

def trimEnd (s : String) : String :=
  String.ofList (s.toList.reverse.dropWhile isBlank).reverse

def trim (s : String) : String :=
  String.ofList ((trimEnd s).toList.dropWhile isBlank)

def unifyBreaks : List Char → List Char
  | []                   => []
  | '\r' :: '\n' :: cs   => '\n' :: unifyBreaks cs
  | '\r' :: cs           => '\n' :: unifyBreaks cs
  | c :: cs              => c :: unifyBreaks cs

def linesOf : List Char → List (List Char)
  | []      => []
  | c :: cs =>
    if c == '\n' then [c] :: linesOf cs
    else match linesOf cs with
      | []      => [[c]]
      | l :: ls => (c :: l) :: ls

def lines (s : String) : List String :=
  (linesOf s.toList).map String.ofList

def anyLines (s : String) : List String :=
  (linesOf (unifyBreaks s.toList)).map String.ofList

end Text
end Inquiry
