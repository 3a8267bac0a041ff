import Inquiry.Sql.Change

/-!
Parts of queries by themselves. Where parts are held in several places, a part that has changed is
put in the place of its former self everywhere.
-/

namespace Inquiry
namespace Sql

inductive Part where
  | name (s : String)
  | asName (part : Nat) (asName : String)
  | source (s : Source)
  | item (i : Item)
  | cond (c : Cond)
  | conds (part : Nat) (cs : List Cond)
  | join (j : Join)
  -- a table with one condition
  | condSource (s : Source) (c : Cond)
  | query (q : Query)
  deriving Inhabited

namespace Part

def number? : Part → Option Nat
  | name _         => none
  | asName p _     => some p
  | source s       => some s.part
  | item i         => some i.part
  | cond c         => some c.part
  | conds p _      => some p
  | join j         => some j.part
  | condSource s _ => some s.part
  | query q        => some q.part

def table? : Part → Option String
  | source s               => some s.table
  | condSource s _         => some s.table
  | join j                 => some j.table
  | item (.column _ t _ _) => some t
  | _                      => none

def condsText (cs : List Cond) : Except Failure String :=
  return String.intercalate " AND " (← cs.mapM Cond.text)

def text : Part → Except Failure String
  | name s         => .ok s
  | asName _ a     => .ok (aliasText a)
  | source s       => .ok s.text
  | item i         => i.text
  | cond c         => c.text
  | conds _ cs     => condsText cs
  | join j         => j.text
  | condSource s c => return "(" ++ s.text ++ ") ON " ++ (← c.text)
  | query q        => q.text

def statement (d : Dialect) : Part → Except Failure String
  | query q => q.statements d
  | p       => p.text

def rename (old new : String) : Part → Except Failure Part
  | source s       => .ok (source (s.renameAlias old new))
  | item i         => item <$> i.renameTable old new
  | cond c         => do
    match ← Cond.renameTables old new [c] with
    | [c] => return cond c
    | _   => return cond c
  | conds p cs     => conds p <$> Cond.renameTables old new cs
  | join j         => join <$> j.renameAlias old new
  | condSource s c => do
    match ← Cond.renameTables old new [c] with
    | [c] => return condSource (s.renameAlias old new) c
    | _   => return condSource s c
  | p => .ok p

def renameConds (old new : String) : Part → Except Failure Part
  | join j         => return join { j with conds := ← Cond.renameTables old new j.conds }
  | condSource s c => do
    match ← Cond.renameTables old new [c] with
    | [c] => return condSource s c
    | _   => return condSource s c
  | p => p.rename old new

def replaceTable (old new : String) : Part → Except Failure Part
  | source s       => .ok (source (s.replaceTable old new))
  | item i         => .ok (item (i.replaceTable old new))
  | cond c         => .ok (cond (c.replaceTable old new))
  | conds p cs     => .ok (conds p (cs.map (Cond.replaceTable old new)))
  | join j         => .ok (join (j.replaceTable old new))
  | condSource s c => .ok (condSource (s.replaceTable old new) (c.replaceTable old new))
  | query q        => return query { q with toBody := ← q.toBody.replaceTable old new }
  | p              => .ok p

def isTrivial : Part → Except Failure Bool
  | cond c | condSource _ c => c.isTrivial
  | conds _ cs              => cs.allM Cond.isTrivial
  | join j                  => j.isTrivial
  | _                       => .error .absent

def addCond (c : Cond) : Part → Except Failure Part
  | conds p cs => .ok (conds p (cs ++ [c]))
  | join j     => .ok (join { j with conds := j.conds ++ [c] })
  | _          => .error .absent

def itemsOf : Item → List Part
  | i@(.expr _ args ..) => item i :: itemsOfList args
  | i                   => [item i]
where
  itemsOfList : List Item → List Part
    | []      => []
    | i :: is => itemsOf i ++ itemsOfList is

def piecesOfCond (c : Cond) : List Part :=
  cond c :: (itemsOf c.lhs ++ itemsOf c.rhs)

def piecesOfBody (b : Body) : List Part :=
  b.items.flatMap itemsOf ++ (b.source.map source).toList
    ++ b.joins.flatMap (fun j => join j :: j.conds.flatMap piecesOfCond)
    ++ b.wheres.flatMap piecesOfCond ++ b.groups.columns.flatMap itemsOf

def pieces : Part → List Part
  | item i           => itemsOf i
  | cond c           => piecesOfCond c
  | p@(conds _ cs)   => p :: cs.flatMap piecesOfCond
  | join j           => join j :: j.conds.flatMap piecesOfCond
  | p@(condSource _ c) => p :: piecesOfCond c
  | query q          =>
    query q :: piecesOfBody q.toBody ++ q.frozen.flatMap (fun f => piecesOfBody f.toBody)
  | p                => [p]

def renewItem (p : Part) : Item → Item
  | .column n t c a =>
    match p with
    | item i => if i.part == n then i else .column n t c a
    | _      => .column n t c a
  | .expr n args a before between =>
    match p with
    | item i => if i.part == n then i else .expr n (renewItems args) a before between
    | _      => .expr n (renewItems args) a before between
where
  renewItems : List Item → List Item
    | []      => []
    | i :: is => renewItem p i :: renewItems is

def renewCond (p : Part) (c : Cond) : Cond :=
  match p with
  | cond d => if d.part == c.part then d else c
  | _      => { c with lhs := renewItem p c.lhs, rhs := renewItem p c.rhs }

def renewSource (p : Part) (s : Source) : Source :=
  match p with
  | source t => if t.part == s.part then t else s
  | _        => s

def renewJoin (p : Part) (j : Join) : Join :=
  match p with
  | join k => if k.part == j.part then k else j
  | _      => { j with conds := j.conds.map (renewCond p) }

def renewBody (p : Part) (b : Body) : Body :=
  { b with
    domain := b.domain.map (renewItem p), codomain := b.codomain.map (renewItem p),
    source := b.source.map (renewSource p), joins := b.joins.map (renewJoin p),
    wheres := b.wheres.map (renewCond p),
    groups := match b.groups with
      | .by cols => .by (cols.map (renewItem p))
      | .whole   => .whole }

def renew (p : Part) (whole : Part) : Part :=
  if p.number?.isSome && p.number? == whole.number? then p
  else match whole with
    | item i         => item (renewItem p i)
    | cond c         => cond (renewCond p c)
    | conds n cs     => conds n (cs.map (renewCond p))
    | join j         => join (renewJoin p j)
    | source s       => source (renewSource p s)
    | condSource s c => condSource s (renewCond p c)
    | query q        =>
      query { q with toBody := renewBody p q.toBody,
                     frozen := q.frozen.map fun f => { f with toBody := renewBody p f.toBody } }
    | w              => w

end Part
end Sql
end Inquiry
