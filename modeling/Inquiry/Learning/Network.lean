import Inquiry.Learning.Numbering
import Inquiry.Learning.Samples

/-!
Training a network on samples: the rows of numbers that it learns from, and what is asked of it.
-/

namespace Inquiry
namespace Learning

-- What a network learns: the class of a request, or the place of the word that it is about.
inductive Goal where
  | cls
  | target
  deriving DecidableEq, Repr

namespace Goal

def name : Goal → String
  | cls    => "classes"
  | target => "targetindex"

def labels : Goal → Nat
  | cls    => 12
  | target => 20

def samples : Goal → Reader → String → SessionM Samples
  | cls    => byClass
  | target => byTarget

end Goal

inductive Layer where
  | embedding (words width : Nat)
  | convolution (filters width : Nat)
  | pooling
  | dense (labels : Nat)

def invocation (name : String) (args : List Json) (named : List (String × Json)) : Json :=
  .arr [.str name, .arr args, .obj named]

def nat (n : Nat) : Json := .int n

def rows (xss : List (List Nat)) : Json :=
  .arr (xss.map fun xs => .arr (xs.map nat))

def Layer.toJson : Layer → Json
  | embedding n w   => invocation "Embedding" [nat n, nat w] []
  | convolution n w =>
    invocation "Conv1D" [nat n, nat w] [("padding", .str "valid"), ("activation", .str "relu")]
  | pooling         => invocation "GlobalMaxPooling1D" [] []
  | dense n         => invocation "Dense" [nat n] [("activation", .str "softmax")]

-- What is asked of a network.
inductive Call where
  | add (l : Layer)
  | summary
  | compile
  | fit (inputs outputs : List (List Nat))
  | toJson
  | saveWeights (file : String)

namespace Call

def optimizer : Json :=
  invocation "RMSprop" [] [("lr", .str "0.001")]

def view : Call → Json
  | add l         => invocation "add" [l.toJson] []
  | summary       => invocation "summary" [] []
  | compile       =>
    invocation "compile" []
      [("optimizer", optimizer), ("loss", .str "categorical_crossentropy"),
       ("metrics", .arr [.str "acc"])]
  | fit xs ys     =>
    invocation "fit" [rows xs, rows ys]
      [("epochs", nat 80), ("batch_size", nat 20), ("validation_split", .str "0.2")]
  | toJson        => invocation "to_json" [] []
  | saveWeights f => invocation "save_weights" [.str f] []

end Call

-- What comes of training: the words by number, what is asked of the network, and what is printed.
structure Training where
  words   : Numbering
  calls   : List Call
  printed : String

def width : Nat := 20

def limit : Nat := 2155

def weightsFile (g : Goal) : String :=
  "./farseer/learn/model_" ++ g.name ++ ".h5"

def train (g : Goal) (s : Samples) : Except Failure Training := do
  let words := Numbering.ofTexts s.texts
  let inputs := ((s.texts.map fun t => pad width (words.encode t)).reverse).take limit
  let labels := s.labels.reverse.take limit
  let outputs ← labels.mapM (oneHot g.labels)
  let n := toString s.texts.length
  let printed := "starting...\n" ++ s.summary
    ++ "number of unique tokens: " ++ toString words.length
    ++ "\nshape of data tensor:  (" ++ n ++ ", " ++ toString width
    ++ ")\nshape of label tensor:  (" ++ n
    ++ ",)\n\n\nready.\n(" ++ toString labels.length ++ ",)\n"
  return {
    words, printed
    calls := [.add (.embedding (words.length + 1) 32), .add (.convolution 32 7), .add .pooling,
      .add (.dense g.labels), .summary, .compile, .fit inputs outputs, .toJson,
      .saveWeights (weightsFile g)] }

end Learning
end Inquiry
