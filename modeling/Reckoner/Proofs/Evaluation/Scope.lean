/-
  Reckoner.Proofs.Evaluation.Scope

  Functions are applied by value, and their placeholders are lexically scoped.

  An evaluation has no scopes: it writes the argument in place of the placeholder and evaluates what
  comes out.  Here is an evaluation that leaves the body as it was read and looks names up in a
  scope; the scope of a body knows its placeholder and nothing else, whoever applies the function.
  The two are the same function (`applyFunction_eq_scope`).  For the proof, a program of the tokens
  after the substitution is the program of the tokens before it, up to the steps that load the
  placeholder (`ofTokens_substituteTokens`); this rests on numbers being read as they are written.
-/
import Reckoner.Evaluation.Lemmas
import Reckoner.Proofs.Decimal.RoundTrip
import Reckoner.Proofs.Syntax.Programs

namespace Reckoner

/-! ## Scopes -/

/-- A placeholder and the argument it stands for. -/
structure Binding where
  placeholder : String
  argument : Float
  deriving DecidableEq

/-- The names that the environment has no say in: the placeholder in a body, none in an
expression. -/
abbrev Scope := Option Binding

namespace Scope

/-- What the scope says of a name. -/
def value? (scope : Scope) (name : String) : Option Float :=
  match scope with
  | some binding => if name = binding.placeholder then some binding.argument else none
  | none => none

/-- How error messages name the token: a placeholder is shown as the number it stands for. -/
def describe (scope : Scope) (token : Token) : String :=
  match token.kind, scope.value? token.text with
  | .variableName, some value => Numeral.ofFloat value
  | _, _ => token.describe

/-! ## Evaluation in a scope

`load` gives the value of a variable that the scope does not know. -/

section Evaluation

variable {ρ : Type} [Resolver ρ] (load : String → Evaluation ρ Float)

/-- The value of a variable, in the scope first. -/
def lookUp (scope : Scope) (name : String) : Evaluation ρ Float :=
  match scope.value? name with
  | some value => return value
  | none => load name

/-- Looks up every variable among the tokens, in order. -/
def bindVariables (scope : Scope) (tokens : List Token) : Evaluation ρ Unit :=
  (tokens.filter (·.kind = .variableName)).forM fun token => discard (scope.lookUp load token.text)

/-- Takes one step, looking variables up in the scope. -/
def takeStep (scope : Scope) (room : Nat) (apply : Nat → String → Float → Evaluation ρ Float)
    (stack : List Float) : Step → Evaluation ρ (List Float)
  | .load name => return (← scope.lookUp load name) :: stack
  | step => Evaluation.takeStep room apply stack step

/-- Runs a program in the scope. -/
def runProgram (scope : Scope) (room : Nat) (apply : Nat → String → Float → Evaluation ρ Float)
    (program : Program) : Evaluation ρ Float := do
  let stack ← program.steps.foldlM (scope.takeStep load room apply) []
  match program.offending with
  | some token => throw (.unexpectedToken (scope.describe token) token.position)
  | none => return stack.headD 0

/-- Applies a function to an argument.  A body is read with the placeholder among the known names,
and evaluated in the scope in which the placeholder stands for the argument. -/
def applyFunction (evaluate : Scope → TokenSequence → Evaluation ρ Float) (name : String)
    (argument : Float) : Evaluation ρ Float :=
  match BuiltIn.ofName? name with
  | some function => return function.apply argument
  | none => do
    let function ← Evaluation.askFunction name
    if isIdentifier function.placeholder then
      let tokens ← Evaluation.readText function.body (·.adding function.placeholder)
      evaluate (some ⟨function.placeholder, argument⟩) tokens
    else
      throw (.invalidIdentifier function.placeholder)

/-- Evaluates a token sequence in the scope, where `room` more factors may be opened. -/
def evaluateTokens (room : Nat) (scope : Scope) (tokens : TokenSequence) :
    Evaluation ρ Float := do
  scope.bindVariables load tokens.body
  scope.runProgram load room (fun opened name argument =>
      if opened < room then
        applyFunction (evaluateTokens (room - (opened + 1))) name argument
      else throw (.nestingLimit nestingLimit))
    (Program.ofTokens tokens)
  termination_by room

/-- Evaluates an expression, in the scope that knows nothing. -/
def evaluateText (text : String) : Evaluation ρ Float := do
  evaluateTokens load nestingLimit none (← Evaluation.readText text id)

end Evaluation

/-! ## Substitution -/

/-- The token with the argument written in place of the placeholder. -/
def substitute (scope : Scope) (token : Token) : Token :=
  match scope with
  | some binding => token.substitute binding.placeholder binding.argument
  | none => token

/-- The token sequence with the argument written in place of the placeholder. -/
def substituteTokens (scope : Scope) (tokens : TokenSequence) : TokenSequence :=
  match scope with
  | some binding => tokens.substitute binding.placeholder binding.argument
  | none => tokens

/-- The step with the argument in place of the placeholder. -/
def substituteStep (scope : Scope) : Step → Step
  | .load name =>
    match scope.value? name with
    | some value => .literal value
    | none => .load name
  | step => step

/-- The program with the argument in place of the placeholder. -/
def substituteProgram (scope : Scope) (program : Program) : Program where
  steps := program.steps.map scope.substituteStep
  offending := program.offending.map scope.substitute

variable {scope : Scope}

theorem value?_eq_none_iff {name : String} :
    scope.value? name = none ↔ scope.map Binding.placeholder ≠ some name := by
  cases scope with
  | none => simp [value?]
  | some binding =>
      rw [value?, Option.map_some, Ne, Option.some.injEq]
      split_ifs with hname
      · exact iff_of_false nofun (not_not.2 hname.symm)
      · exact iff_of_true rfl (Ne.symm hname)

theorem substitute_of_value? {token : Token} {value : Float} (hkind : token.kind = .variableName)
    (hvalue : scope.value? token.text = some value) :
    scope.substitute token = { token with kind := .number, text := Numeral.ofFloat value } := by
  cases scope with
  | none => cases hvalue
  | some binding =>
      rw [value?] at hvalue
      split_ifs at hvalue with hname
      rw [substitute, Token.substitute, if_pos ⟨hkind, hname⟩, Option.some.inj hvalue]

theorem substitute_of_ne {token : Token} (hkind : token.kind ≠ .variableName) :
    scope.substitute token = token := by
  cases scope with
  | none => rfl
  | some binding => rw [substitute, Token.substitute, if_neg fun h => hkind h.1]

theorem substitute_of_value?_eq_none {token : Token} (hvalue : scope.value? token.text = none) :
    scope.substitute token = token := by
  cases scope with
  | none => rfl
  | some binding =>
      rw [value?] at hvalue
      split_ifs at hvalue with hname
      rw [substitute, Token.substitute, if_neg fun h => hname h.2]

theorem describe_substitute (token : Token) :
    (scope.substitute token).describe = scope.describe token := by
  by_cases hkind : token.kind = .variableName
  · cases hvalue : scope.value? token.text with
    | none => rw [substitute_of_value?_eq_none hvalue, describe, hkind, hvalue]
    | some value => rw [substitute_of_value? hkind hvalue, describe, hkind, hvalue]; rfl
  · rw [substitute_of_ne hkind, describe]
    split
    · next heq _ => exact absurd heq hkind
    · rfl

theorem position_substitute (token : Token) :
    (scope.substitute token).position = token.position := by
  cases scope with
  | none => rfl
  | some binding =>
      rw [substitute, Token.substitute]
      split_ifs <;> rfl

theorem body_substituteTokens (tokens : TokenSequence) :
    (scope.substituteTokens tokens).body = tokens.body.map scope.substitute := by
  cases scope with
  | none => exact (List.map_id _).symm
  | some binding => rfl

theorem endPosition_substituteTokens (tokens : TokenSequence) :
    (scope.substituteTokens tokens).endPosition = tokens.endPosition := by
  cases scope <;> rfl

/-! ## Programs after a substitution -/

theorem substituteProgram_prepend (steps : List Step) (program : Program) :
    scope.substituteProgram (program.prepend steps)
      = (scope.substituteProgram program).prepend (steps.map scope.substituteStep) := by
  simp [substituteProgram, Program.prepend]

theorem substituteProgram_halted (token : Token) :
    scope.substituteProgram (.halted token) = .halted (scope.substitute token) :=
  rfl

theorem map_substituteStep_closeFactor (scope : Scope) (frames : List Frame) :
    (Frame.closeFactor frames).1.map scope.substituteStep = (Frame.closeFactor frames).1 := by
  induction frames with
  | nil => rfl
  | cons frame outer ih =>
      cases frame with
      | parenthesis => rfl
      | sum operator => rfl
      | sign | function name | product operator =>
          simp [Frame.closeFactor, ih, substituteStep]

theorem map_substituteStep_closeProduct (scope : Scope) (frames : List Frame) :
    (Frame.closeProduct frames).1.map scope.substituteStep = (Frame.closeProduct frames).1 := by
  cases frames with
  | nil => rfl
  | cons frame outer => cases frame <;> rfl

/-- Substitution makes a number of a variable, so kinds that are treated alike stay so. -/
theorem apply_kind_substitute {α : Type} (f : TokenKind → α) (hf : f .number = f .variableName)
    (scope : Scope) (token : Token) : f (scope.substitute token).kind = f token.kind := by
  by_cases hkind : token.kind = .variableName
  · cases hvalue : scope.value? token.text with
    | none => rw [substitute_of_value?_eq_none hvalue]
    | some value => rw [substitute_of_value? hkind hvalue, hkind, hf]
  · rw [substitute_of_ne hkind]

/-- The number in the place of a placeholder is read as the argument. -/
theorem leaf?_substitute (token : Token) :
    (scope.substitute token).leaf? = token.leaf?.map scope.substituteStep := by
  by_cases hkind : token.kind = .variableName
  · cases hvalue : scope.value? token.text with
    | none =>
        rw [substitute_of_value?_eq_none hvalue, Token.leaf?, hkind]
        simp [substituteStep, hvalue]
    | some value =>
        rw [substitute_of_value? hkind hvalue, Token.leaf?, Token.leaf?, hkind]
        simp [substituteStep, hvalue, Numeral.read_ofFloat]
  · rw [substitute_of_ne hkind]
    cases hleaf : token.leaf? with
    | none => rfl
    | some step =>
        rcases Token.leaf?_cases hleaf with ⟨-, value, -, rfl⟩ | ⟨hkind', -⟩
        · rfl
        · exact absurd hkind' hkind

theorem opens?_substitute (scope : Scope) (token : Token) :
    (scope.substitute token).opens? = token.opens? := by
  by_cases hkind : token.kind = .variableName
  · have hnone : token.opens? = none := by rw [Token.opens?, hkind]
    cases hvalue : scope.value? token.text with
    | none => rw [substitute_of_value?_eq_none hvalue]
    | some value =>
        rw [substitute_of_value? hkind hvalue, hnone]
        rfl
  · rw [substitute_of_ne hkind]

/-- The program of the tokens after the substitution.  A placeholder is read where a variable may
stand and offends elsewhere, and so does the number in its place. -/
theorem reading_substituteProgram {stop : Token} (hstop : stop.kind ≠ .variableName) :
    Reading stop
      (fun frames tokens program => Program.ofOperand stop frames (tokens.map scope.substitute)
        = scope.substituteProgram program)
      (fun frames tokens program => Program.ofOperator stop frames (tokens.map scope.substitute)
        = scope.substituteProgram program) where
  operandEnd := by
    intro frames
    rw [List.map_nil, Program.ofOperand, substituteProgram_prepend, substituteProgram_halted,
      substitute_of_ne hstop]
    rfl
  leaf := by
    intro frames token rest step program hleaf hrest
    have hleaf' : (scope.substitute token).leaf? = some (scope.substituteStep step) := by
      rw [leaf?_substitute, hleaf, Option.map_some]
    rw [List.map_cons, Program.ofOperand_of_leaf? hleaf', hrest, substituteProgram_prepend,
      List.map_cons, List.map_cons, map_substituteStep_closeFactor]
    rfl
  opening := by
    intro frames token rest frame program hopens hrest
    rw [← opens?_substitute scope] at hopens
    rw [List.map_cons, Program.ofOperand_of_opens? hopens, hrest, substituteProgram_prepend]
    rfl
  operandOffends := by
    intro frames token rest hleaf hopens
    have hleaf' : (scope.substitute token).leaf? = none := by
      rw [leaf?_substitute, hleaf, Option.map_none]
    rw [← opens?_substitute scope] at hopens
    rw [List.map_cons, Program.ofOperand_of_offends hleaf' hopens, substituteProgram_prepend,
      substituteProgram_halted]
    rfl
  closed := by
    intro frames hclose
    rw [List.map_nil, Program.ofOperator_nil_of_closed hclose, substituteProgram,
      map_substituteStep_closeProduct]
    rfl
  unclosed := by
    intro frames hclose
    rw [List.map_nil, Program.ofOperator_nil_of_unclosed hclose, substituteProgram_halted,
      substitute_of_ne hstop]
  multiplicative := by
    intro frames token rest operator program hoperator hrest
    rw [← apply_kind_substitute TokenKind.multiplicative? rfl scope] at hoperator
    rw [List.map_cons, Program.ofOperator_of_multiplicative? hoperator, hrest]
  additive := by
    intro frames token rest operator program hoperator hrest
    rw [← apply_kind_substitute TokenKind.additive? rfl scope] at hoperator
    rw [List.map_cons, Program.ofOperator_of_additive? hoperator, hrest, substituteProgram_prepend,
      map_substituteStep_closeProduct]
  closing := by
    intro frames outer token rest program hkind hclose hrest
    have hkind' : (scope.substitute token).kind = .rightParen := by
      rw [substitute_of_ne (by rw [hkind]; decide), hkind]
    rw [List.map_cons, Program.ofOperator_of_closes hkind' hclose, hrest,
      substituteProgram_prepend, List.map_append, map_substituteStep_closeProduct,
      map_substituteStep_closeFactor]
  operatorOffends := by
    intro frames token rest hoffends
    have hoffends' : Program.Offends frames (scope.substitute token) := {
      multiplicative := by
        rw [apply_kind_substitute TokenKind.multiplicative? rfl, hoffends.multiplicative]
      additive := by
        rw [apply_kind_substitute TokenKind.additive? rfl, hoffends.additive]
      closing := by
        intro hkind
        have hsame :=
          apply_kind_substitute (fun kind => decide (kind = .rightParen)) rfl scope token
        exact hoffends.closing (by simpa [hkind] using hsame) }
    rw [List.map_cons, Program.ofOperator_of_offends hoffends', substituteProgram_halted]

/-- The program of a token sequence after the substitution. -/
theorem ofTokens_substituteTokens (tokens : TokenSequence) :
    Program.ofTokens (scope.substituteTokens tokens)
      = scope.substituteProgram (Program.ofTokens tokens) := by
  rw [Program.ofTokens, Program.ofTokens, body_substituteTokens, endPosition_substituteTokens]
  have hstop : (Token.atEnd tokens.endPosition).kind ≠ .variableName := by
    simp [Token.atEnd]
  rcases tokens.body with _ | ⟨first, rest⟩
  · rfl
  · exact ((reading_substituteProgram hstop).program (first :: rest)).1 []

/-! ## Evaluation after a substitution -/

section Variables

variable {ρ : Type} (load : String → Evaluation ρ Float)

theorem bindVariables_cons_of_variable {token : Token} (hkind : token.kind = .variableName)
    (rest : List Token) :
    scope.bindVariables load (token :: rest)
      = discard (scope.lookUp load token.text) >>= fun _ => scope.bindVariables load rest := by
  rw [bindVariables, List.filter_cons_of_pos (by simpa using hkind)]
  rfl

theorem bindVariables_cons_of_ne {token : Token} (hkind : token.kind ≠ .variableName)
    (rest : List Token) :
    scope.bindVariables load (token :: rest) = scope.bindVariables load rest := by
  rw [bindVariables, List.filter_cons_of_neg (by simpa using hkind), bindVariables]

end Variables

section Refinement

variable {ρ : Type} [Resolver ρ]

theorem takeStep_substituteStep (room : Nat) (apply : Nat → String → Float → Evaluation ρ Float)
    (stack : List Float) (step : Step) :
    Evaluation.takeStep room apply stack (scope.substituteStep step)
      = scope.takeStep Evaluation.resolve room apply stack step := by
  cases step with
  | load name =>
      rw [substituteStep, takeStep, lookUp]
      cases scope.value? name with
      | none => rfl
      | some value => rfl
  | enter | literal | negate | combine | apply => rfl

theorem runProgram_substituteProgram (room : Nat)
    (apply : Nat → String → Float → Evaluation ρ Float) (program : Program) :
    Evaluation.runProgram room apply (scope.substituteProgram program)
      = scope.runProgram Evaluation.resolve room apply program := by
  rw [Evaluation.runProgram, runProgram, substituteProgram, List.foldlM_map]
  simp only [takeStep_substituteStep]
  cases program.offending with
  | none => rfl
  | some token =>
      simp only [Option.map_some, describe_substitute, position_substitute]

/-- Before the first step a placeholder is a number already, and numbers are not looked up. -/
theorem bindVariables_map_substitute (tokens : List Token) :
    (Evaluation.bindVariables (tokens.map scope.substitute) : Evaluation ρ Unit)
      = scope.bindVariables Evaluation.resolve tokens := by
  induction tokens with
  | nil => rfl
  | cons token rest ih =>
      rw [List.map_cons]
      by_cases hkind : token.kind = .variableName
      · rw [bindVariables_cons_of_variable _ hkind, ← ih, lookUp]
        cases hvalue : scope.value? token.text with
        | none =>
            rw [substitute_of_value?_eq_none hvalue, Evaluation.bindVariables_cons hkind]
        | some value =>
            -- Looking up a placeholder in the scope asks for nothing either.
            rw [substitute_of_value? hkind hvalue, Evaluation.bindVariables_cons_of_ne (by simp)]
            rfl
      · rw [substitute_of_ne hkind, Evaluation.bindVariables_cons_of_ne hkind,
          bindVariables_cons_of_ne _ hkind, ih]

theorem applyFunction_eq_of_substituteTokens {evaluate : TokenSequence → Evaluation ρ Float}
    {evaluate' : Scope → TokenSequence → Evaluation ρ Float}
    (h : ∀ scope tokens, evaluate (substituteTokens scope tokens) = evaluate' scope tokens)
    (name : String) (argument : Float) :
    Evaluation.applyFunction evaluate name argument = applyFunction evaluate' name argument := by
  have hbody (placeholder : String) (tokens : TokenSequence) :
      evaluate (tokens.substitute placeholder argument)
        = evaluate' (some ⟨placeholder, argument⟩) tokens :=
    h (some ⟨placeholder, argument⟩) tokens
  rw [Evaluation.applyFunction, applyFunction]
  cases BuiltIn.ofName? name with
  | some function => rfl
  | none => simp only [hbody]

/-- Evaluating what a substitution makes of the tokens is evaluating them in the scope. -/
theorem evaluateTokens_substituteTokens (room : Nat) (scope : Scope) (tokens : TokenSequence) :
    (Evaluation.evaluateTokens room (scope.substituteTokens tokens) : Evaluation ρ Float)
      = scope.evaluateTokens Evaluation.resolve room tokens := by
  -- A body has less room than the tokens it is applied among, whatever it consists of.
  induction room using Nat.strongRecOn generalizing scope tokens with
  | ind room ih =>
      have happly (opened : Nat) (name : String) (argument : Float) :
          (if opened < room then
              Evaluation.applyFunction (Evaluation.evaluateTokens (room - (opened + 1))) name
                argument
            else throw (.nestingLimit nestingLimit) : Evaluation ρ Float)
            = if opened < room then
                applyFunction (evaluateTokens Evaluation.resolve (room - (opened + 1))) name
                  argument
              else throw (.nestingLimit nestingLimit) := by
        by_cases hroom : opened < room
        · rw [if_pos hroom, if_pos hroom]
          exact applyFunction_eq_of_substituteTokens (ih _ (by omega)) name argument
        · rw [if_neg hroom, if_neg hroom]
      rw [Evaluation.evaluateTokens, evaluateTokens, body_substituteTokens,
        bindVariables_map_substitute, ofTokens_substituteTokens, runProgram_substituteProgram]
      simp only [happly]

/-- Evaluating an expression is evaluating it with scopes. -/
theorem evaluateText_eq (text : String) :
    (Evaluation.evaluateText text : Evaluation ρ Float) = evaluateText Evaluation.resolve text := by
  have htokens (tokens : TokenSequence) :
      (Evaluation.evaluateTokens nestingLimit tokens : Evaluation ρ Float)
        = evaluateTokens Evaluation.resolve nestingLimit none tokens :=
    evaluateTokens_substituteTokens nestingLimit none tokens
  simp only [Evaluation.evaluateText, evaluateText, htokens]

/-- Applying a function by substitution is applying it by value, its placeholder lexically scoped,
whether the application stands in an expression or in a body; so evaluation is that with scopes. -/
theorem applyFunction_eq_scope :
    (∀ room name argument,
      (Evaluation.applyFunction (Evaluation.evaluateTokens room) name argument : Evaluation ρ Float)
        = applyFunction (evaluateTokens Evaluation.resolve room) name argument) ∧
    ∀ text, (Evaluation.evaluateText text : Evaluation ρ Float)
      = evaluateText Evaluation.resolve text :=
  ⟨fun room => applyFunction_eq_of_substituteTokens (evaluateTokens_substituteTokens room),
    evaluateText_eq⟩

end Refinement

end Scope

end Reckoner
