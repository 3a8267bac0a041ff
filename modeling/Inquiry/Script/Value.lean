import Inquiry.Assoc
import Inquiry.Explanation.Basic
import Inquiry.Json.Basic
import Inquiry.Request.Meaning
import Inquiry.Sql.Part
import Inquiry.Term.Storage

/-!
Values that a script binds to names: plain data, terms, parts of queries and parts of explanations.
Main operations are the text of a value, equality, and the view of a value in JSON.
-/

namespace Inquiry
namespace Script

inductive Value where
  | null
  | bool (b : Bool)
  | int (n : Int)
  | str (s : String)
  | term (t : Term)
  | list (vs : List Value)
  | tuple (vs : List Value)
  | dict (entries : List (Value × Value))
  -- an answer that is not used any further
  | json (j : Json)
  | part (p : Sql.Part)
  | operator (before between : String)
  | projection (dims : List Value) (width : Value)
  | condition (c : Explanation.Condition)
  | dimension (d : Explanation.Dimension)
  | subject (s : Explanation.Subject)
  | denominator (d : Explanation.Denominator)
  deriving Inhabited

namespace Value

def ofTerm : Term → Value
  | .nothing  => null
  | .number n => int n
  | .flag b   => bool b
  | t         => term t

def toTerm : Value → Term
  | term t => t
  | int n  => .number n
  | bool b => .flag b
  | _      => .nothing

def term? (v : Value) : Option Term :=
  Term.present v.toTerm

def str? : Value → Option String
  | str s => some s
  | _     => none

def int? : Value → Option Int
  | int n  => some n
  | bool b => some (if b then 1 else 0)
  | _      => none

def items : Value → List Value
  | list vs | tuple vs => vs
  | _                  => []

def terms (v : Value) : List Term :=
  v.items.map toTerm

def isTrue : Value → Bool
  | null    => false
  | bool b  => b
  | int n   => n != 0
  | str s   => !s.isEmpty
  | list vs | tuple vs => !vs.isEmpty
  | dict es => !es.isEmpty
  | _       => true

def ofJson : Json → Value
  | .null      => null
  | .bool b    => bool b
  | .int n     => int n
  | .decimal s => str s
  | .str s     => str s
  | .arr xs    => list (ofList xs)
  | .obj fs    => dict (ofFields fs)
where
  ofList : List Json → List Value
    | []      => []
    | x :: xs => ofJson x :: ofList xs
  ofFields : List (String × Json) → List (Value × Value)
    | []           => []
    | (k, x) :: fs => (str k, ofJson x) :: ofFields fs

def ofMeaning : Meaning → Value
  | .term t    => ofTerm t
  | .text s    => str s
  | .list ms   => list (ofMeanings ms)
  | .named n k => tuple [str n, str k]
where
  ofMeanings : List Meaning → List Value
    | []      => []
    | m :: ms => ofMeaning m :: ofMeanings ms

def toMeaning : Value → Meaning
  | list vs                => .list (toMeanings vs)
  | tuple [str n, str k]   => .named n k
  | tuple vs               => .list (toMeanings vs)
  | str s                  => .text s
  | null                   => .nothing
  | term t                 => .term t
  | int n                  => .term (.number n)
  | bool b                 => .term (.flag b)
  | _                      => .nothing
where
  toMeanings : List Value → List Meaning
    | []      => []
    | v :: vs => toMeaning v :: toMeanings vs

def quoted : Value → String
  | null     => "None"
  | bool b   => if b then "True" else "False"
  | int n    => toString n
  | str s    => Text.quoted s
  | term t   => t.printed
  | list vs  => "[" ++ ", ".intercalate (quotedList vs) ++ "]"
  | tuple [v] => "(" ++ quoted v ++ ",)"
  | tuple vs => "(" ++ ", ".intercalate (quotedList vs) ++ ")"
  | dict es  => "\x7b" ++ ", ".intercalate (quotedEntries es) ++ "\x7d"
  | part p   =>
    match p.text with
    | .ok s    => s
    | .error _ => ""
  | _        => ""
where
  quotedList : List Value → List String
    | []      => []
    | v :: vs => quoted v :: quotedList vs
  quotedEntries : List (Value × Value) → List String
    | []           => []
    | (k, v) :: es => (quoted k ++ ": " ++ quoted v) :: quotedEntries es

def text : Value → String
  | str s => s
  | v     => v.quoted

def same : Value → Value → Bool
  | term t, term u     => t == u
  | str s, str t       => s == t
  | null, null         => true
  | list vs, list ws   => sameList vs ws
  | tuple vs, tuple ws => sameList vs ws
  | v, w               => v.int?.isSome && v.int? == w.int?
where
  sameList : List Value → List Value → Bool
    | [], []           => true
    | v :: vs, w :: ws => same v w && sameList vs ws
    | _, _             => false

instance : BEq Value := ⟨same⟩

def ofEntries (es : List (Value × Value)) : Value :=
  dict (es.foldl (fun m (k, v) => Assoc.put k v m) [])

def map (f : Term → Term) (g : Sql.Part → Sql.Part) : Value → Value
  | term t   => term (f t)
  | part p   => part (g p)
  | list vs  => list (mapList vs)
  | tuple vs => tuple (mapList vs)
  | dict es  => dict (mapEntries es)
  | v        => v
where
  mapList : List Value → List Value
    | []      => []
    | v :: vs => map f g v :: mapList vs
  mapEntries : List (Value × Value) → List (Value × Value)
    | []           => []
    | (k, v) :: es => (map f g k, map f g v) :: mapEntries es

def renew (k : Term) (v : Value) : Value :=
  v.map (Term.renew k) id

def renewPart (p : Sql.Part) (v : Value) : Value :=
  p.pieces.reverse.foldl (fun v q => v.map id q.renew) v

def alike : Value → Value → Except Failure Bool
  | condition c, condition d     => c.alike d
  | dimension c, dimension d     => c.alike d
  | subject c, subject d         => c.alike d
  | denominator c, denominator d => c.alike d
  | part (.name s), part (.name t) => .ok (s == t)
  | part p, part q               => .ok (p.number?.isSome && p.number? == q.number?)
  | v, w                         => .ok (v == w)

def memberText : Value → Except Failure (Option String)
  | condition c   => some <$> c.text
  | dimension d   => some <$> d.text
  | subject s     => s.text?
  | denominator d => some <$> d.text
  | part (.item (.column ..)) | part (.join _) | list _ | dict _ => .error .mistyped
  | _             => .ok none

def distinct (vs : List Value) : Except Failure (List Value) :=
  Explanation.distinct memberText alike vs

/-! The view in JSON; `fail` is the view of failures. -/

def viewTerm : Term → Json
  | .nothing  => .null
  | .number n => .int n
  | .flag b   => .bool b
  | t         => .obj [("t", .str t.printed), ("c", .str t.className)]

variable (fail : Failure → Json)

def viewResult (f : α → Json) : Except Failure α → Json
  | .ok a    => f a
  | .error e => fail e

def viewNotion (text : Except Failure String) : Json :=
  .obj [("i", viewResult fail .str text)]

def viewPart (p : Sql.Part) : Json :=
  .obj [("repr", viewResult fail .str p.text), ("mysql", viewResult fail .str (p.statement .mySql)),
    ("tsql", viewResult fail .str (p.statement .tSql))]

def view : Value → Json
  | null            => .null
  | bool b          => .bool b
  | int n           => .int n
  | str s           => .str s
  | term t          => viewTerm t
  | list vs         => .arr (viewList vs)
  | tuple vs        => .arr (viewList vs)
  | dict es         => .obj [("d", .arr (viewEntries es))]
  | json j          => j
  | part p          => viewPart fail p
  | operator a b    => .obj [("operator", .arr [.str a, .str b])]
  | projection ds n => .obj [("projection", .arr [.arr (viewList ds), view n])]
  | condition c     => viewNotion fail c.text
  | dimension d     => viewNotion fail d.text
  | subject s       => viewNotion fail s.text
  | denominator d   => viewNotion fail d.text
where
  viewList : List Value → List Json
    | []      => []
    | v :: vs => view v :: viewList vs
  viewEntries : List (Value × Value) → List Json
    | []           => []
    | (k, v) :: es => .arr [view k, view v] :: viewEntries es

def viewPrinted (t : Option Term) : Json :=
  Json.ofOption (fun t => .str t.printed) t

def describe (t : Term) : Json :=
  match viewTerm t with
  | .obj fs =>
    let ends := match t with
      | .kind h _ d c _ =>
        if h.cls.isElement then [("domain", viewPrinted d), ("codomain", viewPrinted c)] else []
      | _ => []
    .obj (fs ++ [("more", .str t.described), ("kind", Json.ofOption (.str ·.label) t.role?),
      ("sort", Json.ofOption (.str ·.label) t.sort?), ("type", viewPrinted t.type?)] ++ ends)
  | j => j

def particulars (t : Term) : Json :=
  let text (f : KindHead → Option String) := Json.ofOption .str (t.head?.bind f)
  match describe t with
  | .obj fs =>
    .obj (fs ++ [("altname", text (·.altname)), ("article", text (·.article)),
      ("code", text (·.code)), ("constr", Json.ofOption viewTerm t.constr?)])
  | j => j

end Value
end Script
end Inquiry
