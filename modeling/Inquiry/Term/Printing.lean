import Inquiry.Term.Basic

/-!
The printed form of a term, and its description, which adds what the term ranges over.
-/

namespace Inquiry
namespace Op

def opening : Op → String
  | composition | cartesianProduct => "("
  | product        => "<"
  | functionalType => "["
  | inclusion      => "i("
  | selection      => "s("
  | aggregation    => "a("
  | inverse        => "k("
  | range          => "r("
  | projection     => "p("

def closing : Op → String
  | product        => ">"
  | functionalType => "]"
  | _              => ")"

def separator (i : Nat) : Op → String
  | composition      => " o "
  | cartesianProduct => " x "
  | functionalType   => " -> "
  | inverse          => " k "
  | range            => " r "
  | inclusion | selection => if i % 2 == 0 then "=" else ", "
  | product | aggregation | projection => ", "

def joinFrom (op : Op) (i : Nat) : List String → String
  | []      => ""
  | [s]     => s
  | s :: ss => s ++ op.separator i ++ op.joinFrom (i + 1) ss

def enclose (op : Op) (args : List String) : String :=
  op.opening ++ op.joinFrom 0 args ++ op.closing

end Op

namespace Term

def printed : Term → String
  | kind h ..        => h.name
  | gap h _          => h.name
  | app _ op args _  => op.enclose (printedList args)
  | number n         => toString n
  | flag b           => if b then "True" else "False"
  | nothing          => "None"
where
  printedList : List Term → List String
    | []      => []
    | t :: ts => t.printed :: printedList ts

theorem printedList_eq_map (ts : List Term) : printed.printedList ts = ts.map printed := by
  induction ts with
  | nil          => rfl
  | cons t ts ih => simp [printed.printedList, ih]

def described : Term → String
  | kind h _ domain codomain _ =>
    let own := h.name ++ " : " ++ h.sort.label
    if h.cls.isType then "\x7b" ++ own ++ "\x7d"
    else describedEnd domain ++ " ---" ++ own ++ "--> " ++ describedEnd codomain
  | t@(gap h type) =>
    match type with
    | none    => h.name
    | some ty => t.printed ++ " : " ++ ty.printed
  | t@(app _ op _ type) =>
    match op.role, type with
    | .element, some ty => t.printed ++ " : " ++ ty.printed
    | _, _              => t.printed
  | t => t.printed
where
  describedEnd : Option Term → String
    | none   => "."
    | some t => t.described

def printedTuple : List Term → String
  | []  => "()"
  | [t] => "(" ++ t.printed ++ ",)"
  | ts  => "(" ++ String.intercalate ", " (ts.map printed) ++ ")"

end Term
end Inquiry
