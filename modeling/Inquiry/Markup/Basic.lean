/-!
Trees of marked-up text: an element has a tag, attributes, the text before its first child, its
children, and the text that follows it inside its parent.
-/

namespace Inquiry
namespace Markup

inductive Element where
  | mk (tag : String) (attributes : List (String × String)) (text : String)
    (children : List Element)
    (tail : String)
  deriving Inhabited

namespace Element

def tag : Element → String
  | mk t .. => t

def attributes : Element → List (String × String)
  | mk _ as .. => as

def text : Element → String
  | mk _ _ s .. => s

def children : Element → List Element
  | mk _ _ _ cs _ => cs

def node (tag : String) (attributes : List (String × String)) (children : List Element) : Element :=
  mk tag attributes "" children ""

def get? (name : String) (e : Element) : Option String :=
  e.attributes.lookup name

def find? (tag : String) (e : Element) : Option Element :=
  e.children.find? (·.tag == tag)

def findAll (tag : String) (e : Element) : List Element :=
  e.children.filter (·.tag == tag)

def text? (e : Element) : Option String :=
  if e.text.isEmpty then none else some e.text

end Element
end Markup
end Inquiry
