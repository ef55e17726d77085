/-
  Reckoner.Program

  Expressions as programs for a stack of numbers.

  A token sequence is read once from left to right. What is open on the way (parentheses, signs
  and functions that wait for their factor, operators that wait for their right side) is a list
  of frames, innermost first; what is complete becomes a step of the program at once. So the
  steps stand in the order in which an evaluation takes them, and where a token cannot follow
  the program ends with that token.

  The grammar, with the empty text as an expression of its own:

      sum     = product (('+' | '-') product)*
      product = factor (('*' | '/') factor)*
      factor  = number | variable | '(' sum ')' | function factor | '-' factor

  Factors nest: a factor is open from its first token on until its last. The step `enter` says
  how many others are open where one begins.
-/
import Reckoner.Token.Basic

namespace Reckoner

/-- The four operators. -/
inductive Operator
  | add
  | subtract
  | multiply
  | divide
  deriving DecidableEq, Repr

namespace Operator

/-- The value of the operator. -/
def apply : Operator → Float → Float → Float
  | .add, left, right => left + right
  | .subtract, left, right => left - right
  | .multiply, left, right => left * right
  | .divide, left, right => left / right

end Operator

/-- A step of an evaluation. -/
inductive Step
  /-- A factor begins while `opened` others are open. -/
  | enter (opened : Nat)
  /-- Puts a number on the stack. -/
  | literal (value : Float)
  /-- Puts the value of a variable on the stack. -/
  | load (name : String)
  /-- Negates the top of the stack. -/
  | negate
  /-- Puts an operator's value in place of the two numbers on top, the right side uppermost. -/
  | combine (operator : Operator)
  /-- Puts a function's value in place of its argument; `opened` factors are open around it. -/
  | apply (function : String) (opened : Nat)
  deriving DecidableEq

/-- Steps to take, and the token that cannot stand where it does, if there is one. -/
structure Program where
  steps : List Step := []
  offending : Option Token := none
  deriving DecidableEq

namespace Program

/-- A program with steps put before its others. -/
def prepend (steps : List Step) (program : Program) : Program :=
  { program with steps := steps ++ program.steps }

/-- The program that ends with a token that cannot follow. -/
def halted (token : Token) : Program :=
  { offending := some token }

end Program

/-- What is open at some place of an expression and waits for what follows. -/
inductive Frame
  /-- A parenthesis. -/
  | parenthesis
  /-- A sign. -/
  | sign
  /-- A function without its argument. -/
  | function (name : String)
  /-- A product with its left side complete. -/
  | product (operator : Operator)
  /-- A sum with its left side complete. -/
  | sum (operator : Operator)
  deriving DecidableEq, Repr

namespace Frame

/-- Whether the frame is an open factor. The left sides of operators are not. -/
def isFactor : Frame → Bool
  | .parenthesis | .sign | .function _ => true
  | .product _ | .sum _ => false

/-- How many factors are open. -/
def opened (frames : List Frame) : Nat :=
  frames.countP isFactor

/-- What becomes complete with a factor: the signs and functions that waited for it, and the
product it is the right side of. The steps, and the frames left. -/
def closeFactor : List Frame → List Step × List Frame
  | .sign :: outer => ((closeFactor outer).map (.negate :: ·) id)
  | .function name :: outer => ((closeFactor outer).map (.apply name (opened outer) :: ·) id)
  | .product operator :: outer => ((closeFactor outer).map (.combine operator :: ·) id)
  | frames => ([], frames)

/-- What becomes complete with a product: the sum it is the right side of. -/
def closeProduct : List Frame → List Step × List Frame
  | .sum operator :: outer => ([.combine operator], outer)
  | frames => ([], frames)

end Frame

namespace Program

open Reckoner.Frame

mutual

/-- The program of the tokens where a factor has to begin. -/
def ofOperand (stop : Token) (frames : List Frame) : List Token → Program
  | [] => (halted stop).prepend [.enter (opened frames)]
  | token :: rest =>
    prepend [.enter (opened frames)] <|
      match token.kind with
      | .number =>
        match Numeral.read token.text with
        | .ok value =>
          prepend (.literal value :: (closeFactor frames).1)
            (ofOperator stop (closeFactor frames).2 rest)
        | .error _ => halted token
      | .variableName =>
        prepend (.load token.text :: (closeFactor frames).1)
          (ofOperator stop (closeFactor frames).2 rest)
      | .leftParen => ofOperand stop (.parenthesis :: frames) rest
      | .functionName => ofOperand stop (.function token.text :: frames) rest
      | .minus => ofOperand stop (.sign :: frames) rest
      | _ => halted token

/-- The program of the tokens where a factor has just ended. -/
def ofOperator (stop : Token) (frames : List Frame) : List Token → Program
  | [] =>
    match closeProduct frames with
    | (steps, []) => { steps }
    | _ => halted stop
  | token :: rest =>
    match token.kind with
    | .star => ofOperand stop (.product .multiply :: frames) rest
    | .slash => ofOperand stop (.product .divide :: frames) rest
    -- The sum so far becomes the left side, so its operator is taken first.
    | .plus =>
      prepend (closeProduct frames).1
        (ofOperand stop (.sum .add :: (closeProduct frames).2) rest)
    | .minus =>
      prepend (closeProduct frames).1
        (ofOperand stop (.sum .subtract :: (closeProduct frames).2) rest)
    | .rightParen =>
      match closeProduct frames with
      | (steps, .parenthesis :: outer) =>
        prepend (steps ++ (closeFactor outer).1) (ofOperator stop (closeFactor outer).2 rest)
      | _ => halted token
    | _ => halted token

end

/-- The program of a token sequence. The empty one has the value zero. -/
def ofTokens (tokens : TokenSequence) : Program :=
  match tokens.body with
  | [] => { steps := [.literal 0] }
  | body => ofOperand (Token.atEnd tokens.endPosition) [] body

end Program

end Reckoner
