import Inquiry.Answer.Report
import Inquiry.Json.Writer

/-!
The pages on which questions are asked and answers are judged: what a visit to a page shows, or
where it leads, and what is noted about it.
-/

namespace Inquiry
namespace Answer

-- The pages that can be visited; the last three are shown when something went wrong.
inductive Place where
  | question
  | result
  | thanks
  | refusal
  | missing
  | broken
  deriving DecidableEq, Repr

-- What a visitor brings along: the fields of a form, whether the form is complete, whether it was
-- sent, and the parameters of the address.
structure Visit where
  fields   : List (String × String) := []
  isFilled : Bool := false
  isSent   : Bool := false
  lists    : List (String × List String) := []
  texts    : List (String × String) := []

def Visit.field (v : Visit) (name : String) : String :=
  (v.fields.lookup name).getD "None"

def Visit.list (v : Visit) (name : String) : List String :=
  (v.lists.lookup name).getD []

-- A template with what is filled in, or another page with its parameters.
inductive Page where
  | render (template : String) (filled : List (String × Json))
  | redirect (page : String) (params : List (String × Json))

inductive Note where
  | info (text : String)
  | error (text : String)

def texts (xs : List String) : Json :=
  .arr (xs.map Json.str)

def explanationJson (r : Explanation.Report) : Json :=
  .obj [("subjects", .arr (r.subjects.map (Json.ofOption .str))),
    ("dimensions", texts r.dimensions), ("conditions", texts r.conditions)]

def answerPage (r : Report) : Except Failure Page :=
  match r.explanation with
  | none   => .error .mistyped
  | some e => .ok (.redirect "evaluation"
      [("rows", texts (r.rows.map fun cells => ";".intercalate cells)),
       ("columntitles", texts r.columns),
       ("explanation", .str ((explanationJson e).render Json.spaced))])

def questionPage (v : Visit) (ask : String → SessionM Report) :
    SessionM (Except Failure Page × List Note) := do
  if !v.isFilled then return (.ok (.render "index.html" []), [])
  let question := v.field "question"
  let asked := Note.info ("Question: " ++ question)
  let failed := (Except.error Failure.unanswered, [asked, .error (" Question " ++ question)])
  match (v.fields.lookup "question").map fun q => (ask q).runIn with
  | none     => return failed
  | some run =>
    let (r, s) := run (← get)
    set s
    match r.bind answerPage with
    | .ok page => return (.ok page, [asked])
    | .error _ => return failed

def resultPage (v : Visit) : Except Failure (Page × List Note) := do
  let rows := (v.list "rows").map (Text.pieces ';')
  let some text := v.texts.lookup "explanation" | throw .mistyped
  let explanation ← Json.parse text
  if v.isFilled then
    let note := "Is Answer?: " ++ v.field "is_answer" ++ ", Is clear?: " ++ v.field "is_clear"
    return (.redirect "thanks_and_ask_again" [], [.info note])
  else
    return (.render "result.html"
      [("columntitles", texts (v.list "columntitles")), ("rows", .arr (rows.map texts)),
       ("expl_dict", explanation)], [])

def visit (p : Place) (v : Visit) (ask : String → SessionM Report) :
    SessionM (Except Failure Page × List Note) := do
  match p with
  | .question => questionPage v ask
  | .result   =>
    match resultPage v with
    | .ok (page, notes) => return (.ok page, notes)
    | .error f          => return (.error f, [])
  | .thanks   =>
    let page := if v.isSent then Page.redirect "index" [] else .render "thanks.html" []
    return (.ok page, [])
  | .refusal  => return (.ok (.render "oops.html" []), [])
  | .missing  => return (.ok (.render "404.html" []), [])
  | .broken   => return (.ok (.render "500.html" []), [])

def Place.status : Place → Nat
  | missing => 404
  | broken  => 500
  | _       => 200

end Answer
end Inquiry
