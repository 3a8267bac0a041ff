import Inquiry.Failure

/-!
Replacing, filling in and quoting pieces of text.
-/

namespace Inquiry
namespace Text

def replaceFirstChars (old new : List Char) : List Char → List Char
  | [] => if old.isEmpty then new else []
  | c :: cs =>
    if old.isPrefixOf (c :: cs) then new ++ (c :: cs).drop old.length
    else c :: replaceFirstChars old new cs

def replaceFirst (old new s : String) : String :=
  String.ofList (replaceFirstChars old.toList new.toList s.toList)

def underscored (s : String) : String :=
  s.map fun c => if c = ' ' then '_' else c

def isHidden (c : Char) : Bool :=
  let n := c.toNat
  n < 32 || (127 ≤ n && n ≤ 160) || n == 0xAD || n == 0x1680 || (0x2000 ≤ n && n ≤ 0x200F)
    || (0x2028 ≤ n && n ≤ 0x202F) || (0x205F ≤ n && n ≤ 0x206F) || n == 0x3000
    || (0xE000 ≤ n && n ≤ 0xF8FF)
    || n == 0xFEFF || (0xFFF9 ≤ n && n ≤ 0xFFFB)

def hexDigits : Nat → Nat → List Char
  | 0, _     => []
  | k + 1, n => hexDigits k (n / 16) ++ [hex (n % 16)]
where
  hex (n : Nat) : Char :=
    if n < 10 then Char.ofNat (48 + n) else Char.ofNat (87 + n)

def quotedChar (quote c : Char) : String :=
  if c = quote || c = '\\' then String.ofList ['\\', c]
  else if c = '\n' then "\\n"
  else if c = '\r' then "\\r"
  else if c = '\t' then "\\t"
  else if isHidden c then
    String.ofList ('\\' ::
      if c.toNat < 256 then 'x' :: hexDigits 2 c.toNat else 'u' :: hexDigits 4 c.toNat)
  else c.toString

def quoted (s : String) : String :=
  let q := if s.contains '\'' && !s.contains '"' then '"' else '\''
  q.toString ++ String.join (s.toList.map (quotedChar q)) ++ q.toString

def bracketed (xs : List String) : String :=
  "[" ++ ", ".intercalate xs ++ "]"

def parenthesised : List String → String
  | [x] => "(" ++ x ++ ",)"
  | xs  => "(" ++ ", ".intercalate xs ++ ")"

def quotedOption : Option String → String
  | some s => quoted s
  | none   => "None"

def fill : List Char → List String → Except Failure String
  | [], [] => .ok ""
  | [], _ :: _ => .error .mistyped
  | '%' :: rest, args =>
    match rest with
    | []          => .error .badValue
    | '%' :: rest => ("%" ++ ·) <$> fill rest args
    | c :: rest   =>
      match args with
      | []        => if "srdiuoxXeEfFgGac(".contains c then .error .mistyped else .error .badValue
      | a :: args =>
        if c = 's' then (a ++ ·) <$> fill rest args
        else if c = 'r' || c = 'a' then (quoted a ++ ·) <$> fill rest args
        else if "diuoxXeEfFgGc(".contains c then .error .mistyped
        else .error .badValue
  | c :: rest, args => (c.toString ++ ·) <$> fill rest args

def markNumbered (word mark : List Char) : List Char → List Char
  | [] => []
  | c :: cs =>
    if word.isPrefixOf (c :: cs) && ((c :: cs).drop word.length).head?.any Char.isDigit then
      mark ++ c :: markNumbered word mark cs
    else c :: markNumbered word mark cs

end Text
end Inquiry
