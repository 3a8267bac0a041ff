import Inquiry.Kind.Making

/-!
The table that answers a request: the titles of its columns, its statements one by one, and its
rows set in columns.
-/

namespace Inquiry
namespace Answer

def titles : Term → Except Failure (List String)
  | .app _ op args _ =>
    match op with
    | .selection => titlesOfEnd 0 args
    | .range     => titlesOfEnd 1 args
    | _          => titlesOfList args
  | .kind h .. =>
    .ok (if h.cls.isPhenomenon || h.cls == .one then [h.name]
      else if h.cls == .objectType then [h.name ++ "-id"]
      else [])
  | _ => .ok []
where
  titlesOfList : List Term → Except Failure (List String)
    | []      => .ok []
    | t :: ts => return (← titles t) ++ (← titlesOfList ts)
  titlesAt : Nat → List Term → Except Failure (List String)
    | _, []          => .error .outOfRange
    | 0, t :: _      => titles t
    | i + 1, _ :: ts => titlesAt i ts
  titlesOfEnd (i : Nat) : List Term → Except Failure (List String)
    | .kind _ (some (.app _ _ ends _)) .. :: _    => titlesAt i ends
    | .gap _ (some (.app _ _ ends _)) :: _        => titlesAt i ends
    | .app _ _ _ (some (.app _ _ ends _)) :: _    => titlesAt i ends
    | []                                          => .error .outOfRange
    | _ :: _                                      => .error .absent

def columnTitles (t : Term) : Except Failure (List String) :=
  match t with
  | .kind _ ty .. | .gap _ ty | .app _ _ _ ty => ty.elim (.ok []) titles
  | _ => .error .absent

def fetched : Nat := 20

def splitBlankLines : List Char → List Char → List (List Char)
  | acc, '\n' :: '\n' :: cs => acc.reverse :: splitBlankLines [] cs
  | acc, c :: cs            => splitBlankLines (c :: acc) cs
  | acc, []                 => [acc.reverse]

def statements (text : String) : List String :=
  let trimmed := (text.toList.reverse.dropWhile (· = '\n')).reverse
  (splitBlankLines [] trimmed).map String.ofList

def padded (width : Nat) (s : String) : String :=
  s ++ String.ofList (List.replicate (width - s.length) ' ')

def widths : List (List String) → List Nat
  | []          => []
  | row :: rows =>
    let wider (ws : List Nat) (r : List String) := List.zipWith max ws (r.map String.length)
    rows.foldl wider (row.map String.length)

def present (rows : List (List String)) : String :=
  let ws := widths rows
  let line (row : List String) := String.intercalate "\t" (List.zipWith padded ws row)
  String.intercalate "\n" (rows.map line) ++ "\n"

end Answer
end Inquiry
