/-
  Reckoner.BuiltIn

  The built-in functions, each of one argument.
-/

namespace Reckoner

/-- The built-in functions. -/
inductive BuiltIn
  | abs
  | cosine
  | cosecant
  | hyperbolicCosine
  | cotangent
  | commonLogarithm
  | naturalLogarithm
  | secant
  | sine
  | hyperbolicSine
  | squareRoot
  | tangent
  | hyperbolicTangent
  deriving DecidableEq, Repr

namespace BuiltIn

/-- The name by which an expression applies the function. -/
def name : BuiltIn → String
  | .abs => "abs"
  | .cosine => "cos"
  | .cosecant => "cosec"
  | .hyperbolicCosine => "cosh"
  | .cotangent => "ctg"
  | .commonLogarithm => "lg"
  | .naturalLogarithm => "ln"
  | .secant => "sec"
  | .sine => "sin"
  | .hyperbolicSine => "sinh"
  | .squareRoot => "sqrt"
  | .tangent => "tan"
  | .hyperbolicTangent => "tanh"

/-- The functions in ascending order of their names. -/
def all : List BuiltIn :=
  [.abs, .cosine, .cosecant, .hyperbolicCosine, .cotangent, .commonLogarithm, .naturalLogarithm,
    .secant, .sine, .hyperbolicSine, .squareRoot, .tangent, .hyperbolicTangent]

/-- The function of the given name. -/
def ofName? (name : String) : Option BuiltIn :=
  all.find? (·.name = name)

/-- The value of the function. Outside its domain it is a NaN or an infinity. -/
def apply : BuiltIn → Float → Float
  | .abs, x => x.abs
  | .cosine, x => x.cos
  | .cosecant, x => 1 / x.sin
  | .hyperbolicCosine, x => x.cosh
  | .cotangent, x => 1 / x.tan
  | .commonLogarithm, x => x.log10
  | .naturalLogarithm, x => x.log
  | .secant, x => 1 / x.cos
  | .sine, x => x.sin
  | .hyperbolicSine, x => x.sinh
  | .squareRoot, x => x.sqrt
  | .tangent, x => x.tan
  | .hyperbolicTangent, x => x.tanh

/-- The table of the functions, as it is shown. -/
def table : String :=
  "FunctionTable \x7b functions: [" ++
    String.intercalate ", " (all.map fun f => "\"" ++ f.name ++ "\"") ++ "] \x7d"

end BuiltIn

end Reckoner
