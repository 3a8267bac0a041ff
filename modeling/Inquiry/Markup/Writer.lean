import Inquiry.Markup.Basic

/-!
Marked-up trees as text in ASCII: other characters are written by their number.
-/

namespace Inquiry
namespace Markup

def charReference (c : Char) : String :=
  "&#" ++ Nat.repr c.toNat ++ ";"

def inAscii (c : Char) : String :=
  if c.toNat < 128 then c.toString else charReference c

def attributeChar (c : Char) : String :=
  if c = '&' then "&amp;"
  else if c = '<' then "&lt;"
  else if c = '>' then "&gt;"
  else if c = '"' then "&quot;"
  else if c = '\r' then "&#13;"
  else if c = '\n' then "&#10;"
  else if c = '\t' then "&#09;"
  else inAscii c

def textChar (c : Char) : String :=
  if c = '&' then "&amp;"
  else if c = '<' then "&lt;"
  else if c = '>' then "&gt;"
  else inAscii c

def escape (f : Char → String) (s : String) : String :=
  String.join (s.toList.map f)

def attributeText (a : String × String) : String :=
  " " ++ a.1 ++ "=\"" ++ escape attributeChar a.2 ++ "\""

namespace Element

def render : Element → String
  | mk tag attributes text children tail =>
    let opening := "<" ++ tag ++ String.join (attributes.map attributeText)
    let body :=
      if text.isEmpty && children.isEmpty then opening ++ " />"
      else opening ++ ">" ++ escape textChar text ++ renderList children ++ "</" ++ tag ++ ">"
    body ++ escape textChar tail
where
  renderList : List Element → String
    | []      => ""
    | e :: es => e.render ++ renderList es

end Element
end Markup
end Inquiry
