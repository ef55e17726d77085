/-
  Reckoner.Proofs.Descent.Checks

  A descent that checks its moves.

  A descent moves its cursor in three ways: it reads the token under it, goes back by one, and
  rejects a token.  Each way makes do where it should not be used: past the last token a read makes
  up an error, at the first token the cursor stays where it is, and any token at all can be
  rejected.  So the procedures are given anew for any moves (`proceduresBy`).  With the moves that
  make do they are those of a descent (`proceduresBy_plain`); with those that check, a descent that
  makes a wrong move does not go on.
-/
import Reckoner.Proofs.Descent.Recursion

namespace Reckoner.Descent

variable {ρ α : Type}

/-- The ways in which a descent uses a cursor: to read a token, to go back, and to reject a token
that has been read. -/
structure Moves (ρ : Type) where
  next : Cursor → Descent ρ (Token × Cursor)
  back : Cursor → Descent ρ Cursor
  reject : Cursor → Token → Descent ρ (Float × Cursor)

/-- A descent that does not go on. -/
def stuck : Descent ρ α := fun _ => none

namespace Moves

/-- Moves that make do. -/
def plain : Moves ρ where
  next := Descent.next
  back cursor := return cursor.back.2
  reject _ token := unexpected token

/-- Moves that check: a token is read only where there is one, there is a token to go back to, and
what is rejected is a token of those that the cursor is on. -/
def checked : Moves ρ where
  next cursor := if cursor.position < cursor.tokens.length then Descent.next cursor else stuck
  back cursor := if 0 < cursor.position then return cursor.back.2 else stuck
  reject cursor token := if token ∈ cursor.tokens then unexpected token else stuck

end Moves

/-- The procedures, given the moves and how the calls are performed. -/
def proceduresBy [Resolver ρ] (moves : Moves ρ) (perform : Performer ρ) (callers : List Call)
    (task : Task) (cursor : Cursor) : Descent ρ (Float × Cursor) := do
  let calls ← enter callers task.procedure cursor
  match task with
  | .sequence =>
    ofEvaluation (Evaluation.bindVariables cursor.tokens)
    let (value, _) ← perform calls .expression { cursor with position := 0 }
    return (value, cursor)
  | .expression =>
    let (first, after) ← moves.next cursor
    if first.kind = .endOfInput then
      return (0, after)
    else
      let cursor ← moves.back after
      let (value, cursor) ← perform calls .sum cursor
      let (last, cursor) ← moves.next cursor
      if last.kind = .endOfInput then return (value, cursor) else moves.reject cursor last
  | .sum =>
    let (value, cursor) ← perform calls .product cursor
    perform calls (.sumRest value) cursor
  | .sumRest left =>
    let (token, after) ← moves.next cursor
    match token.kind.additive? with
    | some operator =>
      let (right, cursor) ← perform calls .product after
      perform calls (.sumRest (operator.apply left right)) cursor
    | none =>
      if token.kind.endsSum then
        let cursor ← moves.back after
        return (left, cursor)
      else moves.reject after token
  | .product =>
    let (value, cursor) ← perform calls .factor cursor
    perform calls (.productRest value) cursor
  | .productRest left =>
    let (token, after) ← moves.next cursor
    match token.kind.multiplicative? with
    | some operator =>
      let (right, cursor) ← perform calls .factor after
      perform calls (.productRest (operator.apply left right)) cursor
    | none =>
      if token.kind.endsProduct then
        let cursor ← moves.back after
        return (left, cursor)
      else moves.reject after token
  | .factor => counted (perform calls .operand cursor)
  | .operand =>
    let (token, after) ← moves.next cursor
    match token.kind with
    | .number =>
      match Numeral.read token.text with
      | .ok value => return (value, after)
      | .error _ => moves.reject after token
    | .variableName =>
      let value ← ofEvaluation (Evaluation.resolve token.text)
      return (value, after)
    | .leftParen =>
      let (value, cursor) ← perform calls .sum after
      let (closing, cursor) ← moves.next cursor
      if closing.kind = .rightParen then return (value, cursor) else moves.reject cursor closing
    | .functionName =>
      let (argument, cursor) ← perform calls .factor after
      perform calls (.application token.text argument) cursor
    | .minus =>
      let (value, cursor) ← perform calls .factor after
      return (-value, cursor)
    | _ => moves.reject after token
  | .application name argument =>
    match BuiltIn.ofName? name with
    | some function => return (function.apply argument, cursor)
    | none =>
      let function ← ofEvaluation (Evaluation.askFunction name)
      if isIdentifier function.placeholder then
        let tokens ← ofEvaluation
          (Evaluation.readText function.body (·.adding function.placeholder))
        let body := tokens.substitute function.placeholder argument
        let (value, _) ← perform calls .sequence { tokens := body.toList }
        return (value, cursor)
      else throw (.invalidIdentifier function.placeholder)

/-- Performs a task by these moves with a number of levels of calls. -/
def performBy [Resolver ρ] (moves : Moves ρ) : Nat → Performer ρ
  | 0 => fun _ _ _ _ => none
  | levels + 1 => proceduresBy moves (performBy moves levels)

variable [Resolver ρ]

/-- With moves that make do, the procedures are those of a descent. -/
theorem proceduresBy_plain (perform : Performer ρ) :
    proceduresBy .plain perform = procedures perform := by
  funext callers task cursor
  cases task <;> rfl

theorem performBy_plain (levels : Nat) :
    (performBy .plain levels : Performer ρ) = performWithin levels := by
  induction levels with
  | zero => rfl
  | succ levels ih => rw [performBy, performWithin, ih, proceduresBy_plain]

end Reckoner.Descent
