import Inquiry.Graph.Basic

/-!
Statements to a graph store: what they ask for, their text, and what those that write do to a graph.
Names are put into a text as they are.
-/

namespace Inquiry

-- What is asked of a graph store. A label is set to a text or to a list of texts; where a change is
-- given, it is the rest of the statement.
inductive Statement where
  | addNode (v : Node)
  | addEdges (e : EdgeSpec)
  | clear
  | shortestPath (origin dest : String)
  | paths (origin dest : String)
  | nodesOfSort (sort : String)
  | node (name : String)
  | edge (name : String)
  | setNode (type name : String) (labels : List (String × (String ⊕ List String)))
  | setEdge (type name : String) (labels : List (String × (String ⊕ List String)))
  | labelNode (name change : String)
  | labelEdge (name change : String)
  deriving Inhabited

namespace Statement

def detail (key : String) (value : Option String) : String :=
  ((Graph.nonEmpty value).map fun v => ", " ++ key ++ ":\"" ++ v ++ "\" ").getD ""

def endText (e : EndName) : String :=
  "\x7b\"name\": \"" ++ e.name ++ "\", \"sort\":\"" ++ e.sort ++ "\"\x7d"

def between (quote origin dest : String) : String :=
  "MATCH (a:Type \x7bname:" ++ quote ++ origin ++ quote ++ "\x7d), (b:Type \x7bname:"
    ++ quote ++ dest ++ quote ++ "\x7d)"

def labelText (subject : String) : String × (String ⊕ List String) → String
  | (key, .inl v)  => " SET " ++ subject ++ "." ++ key ++ " = '" ++ v ++ "'"
  | (key, .inr vs) => " SET " ++ subject ++ "." ++ key ++ " = ["
      ++ ", ".intercalate (vs.map fun v => "'" ++ v ++ "'") ++ "]"

def text : Statement → String
  | addNode v =>
    "CREATE (a:Type \x7bname:\"" ++ v.name ++ "\", sort:\"" ++ v.sort ++ "\" "
      ++ detail "altname" v.altname ++ "\x7d) RETURN id(a)"
  | addEdges e =>
    between "\"" e.domain.name e.codomain.name
      ++ " CREATE (a)-[r:Element \x7bname:\"" ++ e.name ++ "\", sort:\""
      ++ e.sort ++ "\" " ++ detail "article" e.article ++ detail "code" e.code ++ "\x7d]->(b)"
      ++ " SET r.codomain = '" ++ endText e.codomain
      ++ "' SET r.domain = '" ++ endText e.domain ++ "' "
  | clear => "MATCH (n) DETACH DELETE (n)"
  | shortestPath a b => between "'" a b ++ ", p=shortestPath((a)-[*]->(b)) RETURN p"
  | paths a b => between "'" a b ++ ", p=(a)-[*]->(b) RETURN p"
  | nodesOfSort s => "MATCH (a \x7bsort: '" ++ s ++ "'\x7d) RETURN a"
  | node n => "MATCH (a \x7bname: \"" ++ n ++ "\"\x7d) RETURN a"
  | edge n => "MATCH (a)-[r \x7bname: \"" ++ n ++ "\"\x7d]->(b) RETURN r"
  | setNode type n labels =>
    "MATCH (a:" ++ type ++ " \x7bname:'" ++ n ++ "'\x7d)"
      ++ String.join (labels.map (labelText "a"))
  | setEdge type n labels =>
    "MATCH (a)-[r:" ++ type ++ " \x7bname:'" ++ n ++ "'\x7d]->(b)"
      ++ String.join (labels.map (labelText "r"))
  | labelNode n change => "MATCH (" ++ n ++ " \x7bname:'" ++ n ++ "'\x7d)" ++ change
  | labelEdge n change => "MATCH (a)-[" ++ n ++ " \x7bname: '" ++ n ++ "'\x7d]->(b)" ++ change

def apply (g : Graph) : Statement → Graph
  | addNode v  => g.addNode v
  | addEdges e => g.addEdges e
  | clear      => {}
  | _          => g

end Statement
end Inquiry
