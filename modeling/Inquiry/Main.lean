import Inquiry.Demonstration

/-!
The command line shows a demonstration by its name.
-/

open Inquiry

def demonstrations : List (String × SessionM String) :=
  [("terms", Demonstration.terms), ("kinds", Demonstration.kinds),
   ("words", pure Demonstration.crimeWordList), ("store", Demonstration.store)]

def demonstrate (name : String) : Option (Except Failure String) :=
  (demonstrations.lookup name).map fun d => (d.runIn {}).1

def main (args : List String) : IO UInt32 := do
  match args.head?.bind demonstrate with
  | some (.ok text) => IO.print text; return 0
  | some (.error _) => IO.eprintln "the demonstration failed"; return 1
  | none            =>
    IO.println ("demonstrations: " ++ ", ".intercalate (demonstrations.map (·.1)))
    return 1
