import Inquiry.Json.Basic

/-!
JSON values as text. Two styles are in use: one without blanks that leaves characters as they are,
and one with a blank after each comma and colon that is in ASCII.
-/

namespace Inquiry
namespace Json

def hexDigit (n : Nat) : Char :=
  if n < 10 then Char.ofNat ('0'.toNat + n) else Char.ofNat ('a'.toNat + n - 10)

def unitEscape (n : Nat) : String :=
  String.ofList ['\\', 'u', hexDigit (n / 4096 % 16), hexDigit (n / 256 % 16),
    hexDigit (n / 16 % 16), hexDigit (n % 16)]

def charEscape (c : Char) : String :=
  let n := c.toNat
  if n < 0x10000 then unitEscape n
  else unitEscape (0xD800 + (n - 0x10000) / 1024) ++ unitEscape (0xDC00 + (n - 0x10000) % 1024)

def charText (ascii : Bool) (c : Char) : String :=
  if c = '"' then "\\\""
  else if c = '\\' then "\\\\"
  else if c = '\n' then "\\n"
  else if c = '\r' then "\\r"
  else if c = '\t' then "\\t"
  else if c.toNat = 8 then "\\b"
  else if c.toNat = 12 then "\\f"
  else if c.toNat < 32 || ascii && 126 < c.toNat then charEscape c
  else c.toString

def quoted (ascii : Bool) (s : String) : String :=
  "\"" ++ String.join (s.toList.map (charText ascii)) ++ "\""

-- How values are set in text.
structure Style where
  ascii : Bool
  comma : String
  colon : String

def compact : Style := ⟨false, ",", ":"⟩
def spaced  : Style := ⟨true, ", ", ": "⟩

def render (st : Style) : Json → String
  | null         => "null"
  | bool b       => if b then "true" else "false"
  | int n        => toString n
  | decimal text => text
  | str s        => quoted st.ascii s
  | arr xs       => "[" ++ String.intercalate st.comma (renderList xs) ++ "]"
  | obj fields   => "\x7b" ++ String.intercalate st.comma (renderFields fields) ++ "\x7d"
where
  renderList : List Json → List String
    | []      => []
    | x :: xs => x.render st :: renderList xs
  renderFields : List (String × Json) → List String
    | []           => []
    | (k, v) :: fs => (quoted st.ascii k ++ st.colon ++ v.render st) :: renderFields fs

end Json
end Inquiry
