/-
  Reckoner.Resolver

  Who is asked for what an expression leaves open.

  A resolver is a state machine: it is asked for the value of a variable that is declared but
  unbound, or for the body of a function that is not built in, and what it answers may depend on
  everything it was asked before. Three simple resolvers are given here; the console is another.
-/
import Reckoner.NameMap

namespace Reckoner

/-- A function of one argument, given as an expression and the name of its argument in it. -/
structure UserFunction where
  placeholder : String
  body : String
  deriving DecidableEq, Repr

/-- What may be asked of a resolver. -/
inductive Request
  /-- The value of a variable. -/
  | value (name : String)
  /-- The body of a function. -/
  | function (name : String)
  deriving DecidableEq, Repr

/-- The states of a state machine that answers requests. A refusal gives its reason. -/
class Resolver (ρ : Type) where
  /-- The value of a variable. -/
  value : ρ → String → Except String Float × ρ
  /-- The body of a function. -/
  function : ρ → String → Except String UserFunction × ρ

/-! ## A resolver that refuses everything -/

/-- Refuses every request. -/
structure Silent where
  deriving DecidableEq, Repr

instance : Resolver Silent where
  value silent _ := (.error "variable is unbound and no resolver is configured", silent)
  function silent _ := (.error "function is not built in and no resolver is configured", silent)

/-! ## A resolver with fixed answers -/

/-- Answers from two tables, the same whenever it is asked. -/
structure Tables where
  «variables» : NameMap Float := .empty
  functions : NameMap UserFunction := .empty
  deriving DecidableEq

instance : Resolver Tables where
  value tables name :=
    (match tables.«variables».find? name with
      | some value => .ok value
      | none => .error ("no value scripted for variable '" ++ name ++ "'"), tables)
  function tables name :=
    (match tables.functions.find? name with
      | some function => .ok function
      | none => .error ("no body scripted for function '" ++ name ++ "'"), tables)

/-! ## A resolver that reads off prepared answers -/

/-- Gives the prepared answers in order, whatever the names, and refuses when they are used up. -/
structure Script where
  values : List (Except String Float) := []
  functions : List (Except String UserFunction) := []

instance : Resolver Script where
  value script _ :=
    match script.values with
    | [] => (.error "out of values", script)
    | answer :: values => (answer, { script with values })
  function script _ :=
    match script.functions with
    | [] => (.error "out of bodies", script)
    | answer :: functions => (answer, { script with functions })

end Reckoner
