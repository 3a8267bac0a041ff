import Inquiry.Answer.Table
import Inquiry.Explanation.Inform
import Inquiry.Request.Interpret
import Inquiry.Sql.Compile
import Inquiry.Words.Reading

/-!
Answering a question from its words to its rows, with a log of what was found on the way. Without a
database the rows are examples.
-/

namespace Inquiry
namespace Answer

-- A question: its line, the tokens that it was cut into with the names of kinds and the keywords
-- that go with them, and what was learned to tell about it: its class and the place of its target.
structure Question where
  line     : String
  tokens   : List String
  names    : List Meaning
  keywords : List String
  cls      : Int
  place    : Int

-- How questions are answered: whether without a database, or else the rows that it holds, and how
-- long each stage takes.
structure Circumstances where
  knowledge : Words.Knowledge
  isLocal   : Bool := true
  rows      : List (List String) := []
  elapsed   : String := "0.0"

structure Report where
  explanation : Option Explanation.Report
  rows        : List (List String)
  columns     : List String
  log         : String
  times       : String

/-! The log -/

def entry (label text : String) : String :=
  padded 18 label ++ text ++ "\n"

def elapsedText (seconds : String) : String :=
  String.ofList (List.replicate 40 ' ') ++ "--- " ++ seconds ++ " seconds ---"

def printedOrNone : Term → String
  | .nothing => "None"
  | t        => t.printed

def readingText (line : String) (r : Reading) : String :=
  "\n" ++ entry "line:" line ++ entry "tokens:" (Text.bracketed (r.tokens.map Text.quoted))
    ++ entry "synonyms:" (Text.bracketed (r.synonyms.map Text.quotedOption))
    ++ entry "objects:" (Text.bracketed (r.meanings.map fun m =>
      if m.isNothing then "None" else m.printed))
    ++ entry "keywords:" (Text.bracketed (r.keywords.map Text.quoted))

def targetText (pivot target : Term) (cls : Int) (index : Option Int) : String :=
  entry "pivot:" (printedOrNone pivot) ++ entry "class:" (toString cls)
    ++ entry "targetindex:" (toString (index.getD (-1))) ++ entry "target:" (printedOrNone target)
    ++ (if target matches .nothing then "" else "target id: -")

def rankingText : Interpretation → Except Failure String
  | .single _ => .ok ""
  | .ranking _ key order _ =>
    match key with
    | .nothing => .error .absent
    | _        =>
      .ok (entry "order variable:" (key.described ++ " ") ++ entry "order:" (order ++ " "))

def explanationText (r : Explanation.Report) : String :=
  Text.parenthesised
    [Text.bracketed (r.subjects.map Text.quotedOption),
     Text.bracketed (r.dimensions.map Text.quoted), Text.bracketed (r.conditions.map Text.quoted)]

def rowsText (rows : List (List String)) : String :=
  Text.bracketed (rows.map fun r => Text.parenthesised (r.map Text.quoted)) ++ "\n"
    ++ (if rows.length == fetched then "(maximaal 20 rijen)" else "")

/-! Answers -/

def exampleRows : List (List String) := [["1", "Example 1"], ["2", "Example 2"]]

def exampleColumns : List String := ["getal", "1"]

-- What is found of a term: its explanation, columns and rows, and what that adds to the log and to
-- the times.
structure Finding where
  explanation : Explanation.Report
  columns     : List String
  rows        : List (List String)
  log         : String
  times       : String

def find (c : Circumstances) (cls : Int) (t : Term) (key : Option Term) (order : String) :
    SessionM Finding := do
  let tick := elapsedText c.elapsed ++ "\n"
  let designs := (← get).designs
  let q ← Sql.compile { designs, key, order, switches := ⟨false, true⟩ } t
  let statements ← ofExcept (q.statements .tSql)
  let columns ← ofExcept (columnTitles t)
  let rows := c.rows.take fetched
  let explanation := (← ofExcept (Explanation.inform t cls (some order))).sorted
  return {
    explanation, columns, rows
    log := entry "term:" t.described ++ tick ++ entry "sql query:" ("\n" ++ statements) ++ tick
      ++ String.join (columns.map (· ++ "\t")) ++ (if c.isLocal then "" else rowsText rows ++ tick)
      ++ explanationText explanation ++ "\n" ++ tick
    times := c.elapsed ++ ";" ++ c.elapsed ++ ";" ++ (if c.isLocal then "" else c.elapsed ++ "\n")
      ++ c.elapsed ++ "\n" }

def report (c : Circumstances) (q : Question) : SessionM Report := do
  let reading ← Words.readTokens c.knowledge q.tokens q.names q.keywords
  let r : Request := ⟨reading.tokens, reading.meanings, reading.keywords⟩
  let pivot ← r.pivot
  let index ← ofExcept (Keyword.targetIndex r.keywords q.place)
  let target ← r.target q.place pivot
  let tick := elapsedText c.elapsed
  let start := readingText q.line reading ++ tick
    ++ targetText pivot target q.cls index ++ tick ++ "\n"
  let times := c.elapsed ++ ";" ++ c.elapsed ++ ";"
  let i ← r.interpret target q.cls
  let log := start ++ (← ofExcept (rankingText i))
  let (t, key, order) := match i with
    | .single t              => (t, none, "")
    | .ranking t key order _ => (t, some key, order)
  match t with
  | .nothing =>
    if !c.isLocal then throw .unassigned
    return ⟨none, exampleRows, exampleColumns, log ++ padded 18 "term:" ++ "None", times⟩
  | t =>
    let f ← find c q.cls t key order
    let (rows, columns) := if c.isLocal then (exampleRows, exampleColumns) else (f.rows, f.columns)
    return ⟨some f.explanation, rows, columns, log ++ f.log, times ++ f.times⟩

def prompt : String := "Press <ENTER>"

def reports (c : Circumstances) : List Question → SessionM (List Report × Option Failure)
  | []      => return ([], none)
  | q :: qs => do
    match (report c { q with line := q.line ++ "\n" }).runIn (← get) with
    | (.error f, _) => return ([], some f)
    | (.ok r, s)    =>
      set s
      let (rs, f) ← reports c qs
      return (r :: rs, f)

end Answer
end Inquiry
