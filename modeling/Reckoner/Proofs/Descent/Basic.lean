/-
  Reckoner.Proofs.Descent.Basic

  The evaluation of an expression by recursive descent.

  An evaluation turns tokens into a program and takes its steps.  A descent reads the tokens with a
  cursor instead: there is a procedure for each phrase of the grammar, the procedures call each
  other, and a counter tells how many factors are open.  That they ever return is not built in.
  A task is performed with as many levels of calls as it takes, and if no number of levels is
  enough, there is no result.

  Every call is recorded together with the calls that are open around it.  Nothing depends on the
  record; it is there so that something can be said of it.
-/
import Mathlib.Data.Nat.Find
import Reckoner.Evaluation.Lemmas
import Reckoner.Proofs.Syntax.Grammar
import Reckoner.Token.Cursor

namespace Reckoner

/-- Whether a sum ends before a token of the kind. -/
def TokenKind.endsSum (kind : TokenKind) : Bool :=
  kind = .endOfInput || kind = .rightParen

/-- Whether a product ends before a token of the kind. -/
def TokenKind.endsProduct (kind : TokenKind) : Bool :=
  kind.endsSum || kind.additive?.isSome

namespace Descent

/-! ## Calls -/

/-- The procedures.  Those for the rest of a sum and of a product are the loops that read one right
side after the other. -/
inductive Procedure
  | sequence
  | expression
  | sum
  | sumRest
  | product
  | productRest
  /-- A factor, which may be one too many. -/
  | factor
  /-- A factor that is open. -/
  | operand
  | application
  deriving DecidableEq, Repr

/-- A procedure together with the values that it is called with. -/
inductive Task
  | sequence
  | expression
  | sum
  | sumRest (left : Float)
  | product
  | productRest (left : Float)
  | factor
  | operand
  | application (function : String) (argument : Float)

/-- The procedure of a task. -/
@[simp]
def Task.procedure : Task → Procedure
  | .sequence => .sequence
  | .expression => .expression
  | .sum => .sum
  | .sumRest _ => .sumRest
  | .product => .product
  | .productRest _ => .productRest
  | .factor => .factor
  | .operand => .operand
  | .application _ _ => .application

/-- A call of a procedure: where the cursor and how high the counter is when it begins. -/
structure Call where
  procedure : Procedure
  cursor : Cursor
  depth : Nat

/-- What a descent reads and changes.  Besides the state of an evaluation there are the counter of
open factors and the record: for each call the calls that are open then, itself first. -/
structure State (ρ : Type) extends EvalState ρ where
  depth : Nat := 0
  entered : List (List Call) := []

end Descent

open Descent

/-- A computation that may end in an error, or not at all. -/
abbrev Descent (ρ α : Type) := ExceptT EvalError (StateT (Descent.State ρ) Option) α

namespace Descent

variable {ρ α β : Type}

theorem bind_apply (first : Descent ρ α) (next : α → Descent ρ β) (state : State ρ) :
    (first >>= next) state =
      match first state with
      | some (.ok value, state) => next value state
      | some (.error error, state) => some (.error error, state)
      | none => none := by
  simp only [bind, ExceptT.bind, ExceptT.mk, StateT.bind]
  rcases first state with _ | ⟨error | value, state'⟩ <;> rfl

/-! ## Procedures -/

/-- What an evaluation does, as part of a descent. -/
def ofEvaluation (computation : Evaluation ρ α) : Descent ρ α := fun state =>
  let (result, after) := computation state.toEvalState
  some (result, { state with toEvalState := after })

/-- Records a call, and gives the calls that are open now. -/
def enter (callers : List Call) (procedure : Procedure) (cursor : Cursor) :
    Descent ρ (List Call) := fun state =>
  let calls := ⟨procedure, cursor, state.depth⟩ :: callers
  some (.ok calls, { state with entered := state.entered ++ [calls] })

/-- The token under the cursor, and the cursor after it. -/
def next (cursor : Cursor) : Descent ρ (Token × Cursor) :=
  match cursor.next with
  | (some token, after) => return (token, after)
  | (none, _) => throw (.unexpectedToken "end of input" cursor.position)

/-- Rejects a token. -/
def unexpected (token : Token) : Descent ρ α :=
  throw (.unexpectedToken token.describe token.position)

/-- Runs a computation with one factor more open, unless that is one too many. -/
def counted (computation : Descent ρ α) : Descent ρ α := fun state =>
  if nestingLimit ≤ state.depth then some (.error (.nestingLimit nestingLimit), state)
  else do
    let (result, after) ← computation { state with depth := state.depth + 1 }
    return (result, { after with depth := after.depth - 1 })

theorem counted_of_le {computation : Descent ρ α} {state : State ρ}
    (h : nestingLimit ≤ state.depth) :
    counted computation state = some (.error (.nestingLimit nestingLimit), state) :=
  if_pos h

theorem counted_of_lt {computation : Descent ρ α} {state after : State ρ}
    {result : Except EvalError α} (h : state.depth < nestingLimit)
    (hresult : computation { state with depth := state.depth + 1 } = some (result, after)) :
    counted computation state = some (result, { after with depth := after.depth - 1 }) := by
  rw [counted, if_neg (Nat.not_le_of_lt h), hresult]
  rfl

/-- A way to perform tasks, where the cursor is and with the given calls open around them.  It gives
the value and where the cursor is then. -/
abbrev Performer (ρ : Type) :=
  List Call → Task → Cursor → Descent ρ (Float × Cursor)

/-- The procedures, given how the calls in them are performed. -/
def procedures [Resolver ρ] (perform : Performer ρ) (callers : List Call) (task : Task)
    (cursor : Cursor) : Descent ρ (Float × Cursor) := do
  let calls ← enter callers task.procedure cursor
  match task with
  | .sequence =>
    ofEvaluation (Evaluation.bindVariables cursor.tokens)
    let (value, _) ← perform calls .expression { cursor with position := 0 }
    return (value, cursor)
  | .expression =>
    let (first, after) ← next cursor
    if first.kind = .endOfInput then
      return (0, after)
    else
      let (value, cursor) ← perform calls .sum after.back.2
      let (last, cursor) ← next cursor
      if last.kind = .endOfInput then return (value, cursor) else unexpected last
  | .sum =>
    let (value, cursor) ← perform calls .product cursor
    perform calls (.sumRest value) cursor
  | .sumRest left =>
    let (token, after) ← next cursor
    match token.kind.additive? with
    | some operator =>
      let (right, cursor) ← perform calls .product after
      perform calls (.sumRest (operator.apply left right)) cursor
    | none => if token.kind.endsSum then return (left, after.back.2) else unexpected token
  | .product =>
    let (value, cursor) ← perform calls .factor cursor
    perform calls (.productRest value) cursor
  | .productRest left =>
    let (token, after) ← next cursor
    match token.kind.multiplicative? with
    | some operator =>
      let (right, cursor) ← perform calls .factor after
      perform calls (.productRest (operator.apply left right)) cursor
    | none => if token.kind.endsProduct then return (left, after.back.2) else unexpected token
  | .factor => counted (perform calls .operand cursor)
  | .operand =>
    let (token, after) ← next cursor
    match token.kind with
    | .number =>
      match Numeral.read token.text with
      | .ok value => return (value, after)
      | .error _ => unexpected token
    | .variableName =>
      let value ← ofEvaluation (Evaluation.resolve token.text)
      return (value, after)
    | .leftParen =>
      let (value, cursor) ← perform calls .sum after
      let (closing, cursor) ← next cursor
      if closing.kind = .rightParen then return (value, cursor) else unexpected closing
    | .functionName =>
      let (argument, cursor) ← perform calls .factor after
      perform calls (.application token.text argument) cursor
    | .minus =>
      let (value, cursor) ← perform calls .factor after
      return (-value, cursor)
    | _ => unexpected token
  | .application name argument =>
    match BuiltIn.ofName? name with
    | some function => return (function.apply argument, cursor)
    | none =>
      let function ← ofEvaluation (Evaluation.askFunction name)
      if isIdentifier function.placeholder then
        let tokens ← ofEvaluation
          (Evaluation.readText function.body (·.adding function.placeholder))
        let body := tokens.substitute function.placeholder argument
        let (value, _) ← perform calls .sequence { tokens := body.toList }
        return (value, cursor)
      else throw (.invalidIdentifier function.placeholder)

/-- Performs a task with a number of levels of calls.  There is no result if that takes more. -/
def performWithin [Resolver ρ] : Nat → Performer ρ
  | 0 => fun _ _ _ _ => none
  | levels + 1 => procedures (performWithin levels)

open Classical in
/-- Performs a task with as many levels of calls as it takes.  There is no result if it goes on to
call for ever. -/
noncomputable def perform [Resolver ρ] : Performer ρ := fun callers task cursor state =>
  if h : ∃ levels, (performWithin levels callers task cursor state).isSome then
    performWithin (Nat.find h) callers task cursor state
  else none

/-- Evaluates an expression. -/
noncomputable def evaluateText [Resolver ρ] (text : String) : Descent ρ Float := do
  let tokens ← ofEvaluation (Evaluation.readText text id)
  let (value, _) ← perform [] .sequence { tokens := tokens.toList }
  return value

end Descent

end Reckoner
