/-
  Reckoner.Batch

  Evaluations that stand alone, one or many at a time. Nobody is asked for what they leave open.
-/
import Reckoner.Evaluator

namespace Reckoner

/-- The evaluator with names declared and bound, one after the other, up to one that is no name. -/
def Evaluator.withVariables (evaluator : Evaluator Silent) (values : List (String × Float)) :
    Except EvalError (Evaluator Silent) :=
  values.foldlM (fun evaluator (name, value) => do
    return ((← evaluator.declareVariable name).setVariable name value).2) evaluator

/-- The value of an expression with the given variables. -/
def evaluateExpression (expression : String) (values : List (String × Float)) :
    Except EvalError Float := do
  let evaluator : Evaluator Silent := { resolver := {} }
  (← (evaluator.setExpression expression).withVariables values).evaluate.result

/-- The values of several expressions with the same variables. -/
def evaluateBatch (expressions : List String) (values : List (String × Float)) :
    List (Except EvalError Float) :=
  expressions.map (evaluateExpression · values)

/-- The values of one expression with several assignments of variables. -/
def evaluateContexts (expression : String) (contexts : List (List (String × Float))) :
    List (Except EvalError Float) :=
  contexts.map (evaluateExpression expression)

/-! ## Points -/

/-- A point in space. -/
structure Point where
  x : Float
  y : Float
  z : Float

/-- Evaluates an expression at a point. -/
def Evaluator.evaluateAt (evaluator : Evaluator Silent) (expression : String) (point : Point) :
    Evaluator.Outcome Silent Float :=
  let evaluator := evaluator.setExpression expression
  let evaluator := (evaluator.setVariable "x" point.x).2
  let evaluator := (evaluator.setVariable "y" point.y).2
  let evaluator := (evaluator.setVariable "z" point.z).2
  evaluator.evaluate

/-- The values of an expression at the points of a list, all found by the same evaluator. -/
def Evaluator.evaluateChunk (expression : String) :
    Evaluator Silent → List Point → List (Except EvalError Float)
  | _, [] => []
  | evaluator, point :: points =>
    let outcome := evaluator.evaluateAt expression point
    outcome.result :: Evaluator.evaluateChunk expression outcome.evaluator points

/-- The values of an expression at points that come in chunks, each with an evaluator of its
own. -/
def evaluateChunks (expression : String) (chunks : List (List Point)) :
    List (Except EvalError Float) :=
  chunks.flatMap (Evaluator.evaluateChunk expression { resolver := {} })

/-- The values of an expression at several points. -/
def evaluatePoints (expression : String) (points : List Point) : List (Except EvalError Float) :=
  evaluateChunks expression [points]

end Reckoner
