/-
  Reckoner.Evaluator

  An expression together with the environment and the resolver it is evaluated with.

  The environment outlives evaluations: a new expression finds `x`, `y` and `z` unbound, and
  every other name as it was left.
-/
import Reckoner.Evaluation.Basic

namespace Reckoner

/-- An expression, and what it is evaluated with. -/
structure Evaluator (ρ : Type) where
  expression : String := ""
  environment : Environment := .initial
  resolver : ρ

namespace Evaluator

variable {ρ : Type}

/-- Takes a new expression and makes the conventional names unbound. -/
def setExpression (evaluator : Evaluator ρ) (text : String) : Evaluator ρ :=
  { evaluator with
    expression := text
    environment := evaluator.environment.resetConventional }

/-- Gives a known name a value, and tells whether the name was known. -/
def setVariable (evaluator : Evaluator ρ) (name : String) (value : Float) : Bool × Evaluator ρ :=
  (evaluator.environment.isKnown name,
    { evaluator with environment := evaluator.environment.bind name value })

/-- Makes a name known and unbound. -/
def declareVariable (evaluator : Evaluator ρ) (name : String) : Except EvalError (Evaluator ρ) :=
  (evaluator.environment.declare name).map fun environment => { evaluator with environment }

/-- The value of a name, if it is known and bound. -/
def value? (evaluator : Evaluator ρ) (name : String) : Option Float :=
  evaluator.environment.value? name

/-- The tokens of a text with the names known now. -/
def tokenize (evaluator : Evaluator ρ) (text : String) : Except EvalError TokenSequence :=
  match Reckoner.tokenize evaluator.environment.knownNames text with
  | .ok tokens => .ok tokens
  | .error error => .error (.lexical error)

/-- What a computation has come to: its result, the requests it made, and what it left. -/
structure Outcome (ρ α : Type) where
  result : Except EvalError α
  asked : List Request
  evaluator : Evaluator ρ

/-- Carries out a computation with the evaluator's environment and resolver. -/
def run (evaluator : Evaluator ρ) {α : Type} (computation : Evaluation ρ α) : Outcome ρ α :=
  let (result, state) :=
    computation { environment := evaluator.environment, resolver := evaluator.resolver }
  { result
    asked := state.asked
    evaluator :=
      { evaluator with environment := state.environment, resolver := state.resolver } }

variable [Resolver ρ]

/-- Evaluates the expression. -/
def evaluate (evaluator : Evaluator ρ) : Outcome ρ Float :=
  evaluator.run (Evaluation.evaluateText evaluator.expression)

/-- Resolves a name. -/
def resolve (evaluator : Evaluator ρ) (name : String) : Outcome ρ Float :=
  evaluator.run (Evaluation.resolve name)

/-- Resolves a name and forgets what the environment has learnt. -/
def resolveInCopy (evaluator : Evaluator ρ) (name : String) : Outcome ρ Float :=
  let outcome := evaluator.resolve name
  { outcome with
    evaluator := { outcome.evaluator with environment := evaluator.environment } }

end Evaluator

end Reckoner
