/-!
The knowledge graph: a node for each type, an edge for each element, and the trails from one node
to another. A trail uses no edge twice, but it may pass a node more than once.
-/

namespace Inquiry

structure Node where
  name    : String
  sort    : String
  altname : Option String := none
  deriving Inhabited

-- A node as an edge refers to it.
structure EndName where
  name : String
  sort : String
  deriving Inhabited

structure Edge where
  name     : String
  sort     : String
  source   : Nat
  target   : Nat
  domain   : EndName
  codomain : EndName
  article  : Option String := none
  code     : Option String := none
  deriving Inhabited

-- What is asked for when edges are added: one for each pair of nodes with the names of the ends.
structure EdgeSpec where
  name     : String
  sort     : String
  domain   : EndName
  codomain : EndName
  article  : Option String := none
  code     : Option String := none
  deriving Inhabited

-- Nodes and edges are numbered in the order of their creation.
structure Graph where
  nodes : Array Node := #[]
  edges : Array Edge := #[]
  deriving Inhabited

namespace Graph

def nonEmpty (s : Option String) : Option String :=
  s.filter (!·.isEmpty)

def addNode (g : Graph) (v : Node) : Graph :=
  { g with nodes := g.nodes.push { v with altname := nonEmpty v.altname } }

def numbersOf (g : Graph) (name : String) : List Nat :=
  (List.range g.nodes.size).filter fun i => g.nodes[i]?.any (·.name == name)

def addEdges (g : Graph) (e : EdgeSpec) : Graph :=
  let pairs := (g.numbersOf e.domain.name).flatMap fun s =>
    (g.numbersOf e.codomain.name).map fun t => (s, t)
  let new := pairs.map fun (s, t) =>
    { name := e.name, sort := e.sort, source := s, target := t, domain := e.domain,
      codomain := e.codomain, article := nonEmpty e.article, code := nonEmpty e.code : Edge }
  { g with edges := g.edges ++ new }

def node? (g : Graph) (name : String) : Option Node :=
  g.nodes.find? (·.name == name)

def edge? (g : Graph) (name : String) : Option Edge :=
  g.edges.find? (·.name == name)

def nodesOfSort (g : Graph) (sort : String) : List Node :=
  g.nodes.toList.filter (·.sort == sort)

def outgoing (g : Graph) : Array (List (Nat × Edge)) :=
  g.edges.toList.zipIdx.foldr
    (fun (e, i) out => out.modify e.source ((i, e) :: ·))
    (Array.replicate g.nodes.size [])

def nameOf (g : Graph) (v : Nat) : Option String :=
  g.nodes[v]?.map (·.name)

def trailsFrom (g : Graph) (out : Array (List (Nat × Edge))) (dest : String) :
    Nat → List Nat → Nat → List (List Edge)
  | 0, _, _ => []
  | n + 1, used, v =>
    (out[v]?.getD []).flatMap fun (i, e) =>
      if used.contains i then []
      else
        let here := if g.nameOf e.target == some dest then [[e]] else []
        here ++ (trailsFrom g out dest n (i :: used) e.target).map (e :: ·)

def trails (g : Graph) (origin dest : String) : List (List Edge) :=
  let out := g.outgoing
  (g.numbersOf origin).flatMap fun v => g.trailsFrom out dest g.edges.size [] v

end Graph
end Inquiry
