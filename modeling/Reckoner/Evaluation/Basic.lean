/-
  Reckoner.Evaluation.Basic

  The evaluation of an expression.

  An evaluation may ask a resolver and bind variables to what it answers; both happen whether or
  not a value is reached in the end. Before the first step all variables of an expression are
  given their values. A function that is not built in is asked for anew at each application; its
  body is an expression of its own, evaluated with the argument written in place of the
  placeholder, inside the factors that are open around the application.
-/
import Reckoner.BuiltIn
import Reckoner.Environment
import Reckoner.Program
import Reckoner.Resolver
import Reckoner.Token.Lexer

namespace Reckoner

/-- How many factors may be open at once. -/
def nestingLimit : Nat := 128

/-- What an evaluation reads and changes: the environment, the resolver, and the requests made
so far, in order. -/
structure EvalState (ρ : Type) where
  environment : Environment
  resolver : ρ
  asked : List Request := []

/-- A computation that may end in an error; what it has changed by then stays changed. -/
abbrev Evaluation (ρ α : Type) := ExceptT EvalError (StateM (EvalState ρ)) α

namespace Evaluation

variable {ρ : Type} [Resolver ρ]

/-- Asks for the value of a variable. -/
def askValue (name : String) : Evaluation ρ Float := fun state =>
  let (answer, resolver) := Resolver.value state.resolver name
  (answer.mapError (.unanswered name),
    { state with resolver, asked := state.asked ++ [.value name] })

/-- Asks for a function. -/
def askFunction (name : String) : Evaluation ρ UserFunction := fun state =>
  let (answer, resolver) := Resolver.function state.resolver name
  (answer.mapError (.unanswered name),
    { state with resolver, asked := state.asked ++ [.function name] })

/-- The value of a known name. If it is unbound it is asked for, and bound to the answer. -/
def resolve (name : String) : Evaluation ρ Float := fun state =>
  match state.environment.entries.find? name with
  | none => (.error (.unknownIdentifier name), state)
  | some (some value) => (.ok value, state)
  | some none =>
    match askValue name state with
    | (.ok value, state) =>
      (.ok value, { state with environment := state.environment.set name (some value) })
    | (.error error, state) => (.error error, state)

/-- Gives every variable among the tokens its value, in order. -/
def bindVariables (tokens : List Token) : Evaluation ρ Unit :=
  (tokens.filter (·.kind = .variableName)).forM fun token => discard (resolve token.text)

/-- Reads a text with the known names, and `more` of them. -/
def readText (text : String) (extend : KnownNames → KnownNames) :
    Evaluation ρ TokenSequence := do
  match tokenize (extend (← get).environment.knownNames) text with
  | .ok tokens => return tokens
  | .error error => throw (.lexical error)

/-- Applies a function to an argument. A body is read with the placeholder among the known names
and handed on to `evaluate` with the argument in its place. -/
def applyFunction (evaluate : TokenSequence → Evaluation ρ Float) (name : String)
    (argument : Float) : Evaluation ρ Float :=
  match BuiltIn.ofName? name with
  | some function => return function.apply argument
  | none => do
    let function ← askFunction name
    if isIdentifier function.placeholder then
      let tokens ← readText function.body (·.adding function.placeholder)
      evaluate (tokens.substitute function.placeholder argument)
    else
      throw (.invalidIdentifier function.placeholder)

/-- Takes one step; `room` more factors may be opened, and `apply` evaluates an application inside
a number of open factors. The programs of token sequences never meet a stack that is too short. -/
def takeStep (room : Nat) (apply : Nat → String → Float → Evaluation ρ Float)
    (stack : List Float) : Step → Evaluation ρ (List Float)
  | .enter opened => if opened < room then return stack else throw (.nestingLimit nestingLimit)
  | .literal value => return value :: stack
  | .load name => return (← resolve name) :: stack
  | .negate =>
    match stack with
    | value :: stack => return -value :: stack
    | [] => return []
  | .combine operator =>
    match stack with
    | right :: left :: stack => return operator.apply left right :: stack
    | short => return short
  | .apply function opened =>
    match stack with
    | argument :: stack => return (← apply opened function argument) :: stack
    | [] => return []

/-- Runs a program. Its value is what the steps leave on the stack, unless a token offends. -/
def runProgram (room : Nat) (apply : Nat → String → Float → Evaluation ρ Float)
    (program : Program) : Evaluation ρ Float := do
  -- What the steps before an offending token ask for is asked for all the same.
  let stack ← program.steps.foldlM (takeStep room apply) []
  match program.offending with
  | some token => throw (.unexpectedToken token.describe token.position)
  | none => return stack.headD 0

/-- Evaluates a token sequence where `room` more factors may be opened. An application inside
`opened` factors is a factor itself, so its body is left the rest of the room. -/
def evaluateTokens (room : Nat) (tokens : TokenSequence) : Evaluation ρ Float := do
  bindVariables tokens.body
  runProgram room (fun opened name argument =>
      if opened < room then
        applyFunction (evaluateTokens (room - (opened + 1))) name argument
      else throw (.nestingLimit nestingLimit))
    (Program.ofTokens tokens)
  termination_by room

/-- Evaluates an expression. -/
def evaluateText (text : String) : Evaluation ρ Float := do
  evaluateTokens nestingLimit (← readText text id)

end Evaluation

end Reckoner
