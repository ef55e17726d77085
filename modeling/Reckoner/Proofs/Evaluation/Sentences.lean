/-
  Reckoner.Proofs.Evaluation.Sentences

  The value of an expression is the value of its tree.

  Where every variable is bound and every function is built in, an evaluation gives a value exactly
  for the sentences of the grammar that keep within the nesting limit, and the value is that of the
  tree (`evaluate_eq_ok_iff_sentence`).  Underneath, the steps of a tree leave its value on the
  stack and change nothing else, unless they open too many factors (`foldlM_takeStep_steps`).
-/
import Reckoner.Evaluator
import Reckoner.Proofs.Evaluation.Resolve
import Reckoner.Proofs.Syntax.Programs
import Reckoner.Proofs.Syntax.Unambiguity
import Reckoner.Proofs.Token.Lexed

namespace Reckoner

/-- What an environment makes of the leaves and functions of a tree.  A name without a value and a
function that is not built in stand for zero. -/
def Environment.interpretation (environment : Environment) : Interpretation where
  number := Numeral.valueOf
  variableName name := (environment.value? name).getD 0
  function name argument :=
    match BuiltIn.ofName? name with
    | some function => function.apply argument
    | none => 0

/-- Nobody has to be asked about the tree: its variables are bound, its functions built in. -/
def Tree.Settled (environment : Environment) : Tree → Prop
  | .number _ => True
  | .variableName name => environment.isBound name
  | .parenthesis inner => inner.Settled environment
  | .application function argument =>
    (BuiltIn.ofName? function).isSome ∧ argument.Settled environment
  | .negation operand => operand.Settled environment
  | .operation _ left right => left.Settled environment ∧ right.Settled environment

/-- Nobody has to be asked about the token. -/
def Token.Settled (environment : Environment) (token : Token) : Prop :=
  (token.kind = .variableName → environment.isBound token.text) ∧
  (token.kind = .functionName → (BuiltIn.ofName? token.text).isSome)

theorem Derives.settled {environment : Environment} {phrase : Phrase} {tokens : List Token}
    {tree : Tree} (h : Derives phrase tokens tree)
    (hsettled : ∀ token ∈ tokens, token.Settled environment) : tree.Settled environment := by
  induction h with
  | number => trivial
  | variableName hkind => exact (hsettled _ (by simp)).1 hkind
  | parenthesis _ _ _ ih => exact ih fun token htoken => hsettled token (by simp [htoken])
  | application hfunction _ ih =>
      exact ⟨(hsettled _ (by simp)).2 hfunction,
        ih fun token htoken => hsettled token (by simp [htoken])⟩
  | negation _ _ ih => exact ih fun token htoken => hsettled token (by simp [htoken])
  | productOfFactor _ ih => exact ih hsettled
  | sumOfProduct _ ih => exact ih hsettled
  | product _ _ _ ihLeft ihRight | sum _ _ _ ihLeft ihRight =>
      exact ⟨ihLeft fun token htoken => hsettled token (by simp [htoken]),
        ihRight fun token htoken => hsettled token (by simp [htoken])⟩

namespace Evaluation

variable {ρ : Type} [Resolver ρ]

/-- The variables of an expression are all bound before it is evaluated. -/
theorem bindVariables_of_isBound {state : EvalState ρ} {tokens : List Token}
    (h : ∀ token ∈ tokens, token.kind = .variableName → state.environment.isBound token.text) :
    bindVariables tokens state = (.ok (), state) := by
  induction tokens with
  | nil => rfl
  | cons token rest ih =>
      have hrest := ih fun token htoken => h token (List.mem_cons_of_mem _ htoken)
      by_cases hkind : token.kind = .variableName
      · have hbound := h token List.mem_cons_self hkind
        obtain ⟨value, hvalue⟩ := Option.isSome_iff_exists.1 hbound
        rw [bindVariables_cons_of_variable hkind, resolve_of_value? hvalue]
        exact hrest
      · rw [bindVariables_cons_of_ne hkind]
        exact hrest

theorem foldlM_takeStep_enter (room opened : Nat)
    (apply : Nat → String → Float → Evaluation ρ Float) (steps : List Step) (stack : List Float)
    (state : EvalState ρ) :
    (Step.enter opened :: steps).foldlM (takeStep room apply) stack state
      = if opened < room then steps.foldlM (takeStep room apply) stack state
        else (.error (.nestingLimit nestingLimit), state) := by
  rw [List.foldlM_cons, bind_apply, takeStep]
  by_cases hroom : opened < room
  · rw [if_pos hroom, if_pos hroom]
    rfl
  · rw [if_neg hroom, if_neg hroom]
    rfl

/-- The steps of a factor that ends with a step of its own, after those of its operand. -/
theorem foldlM_takeStep_enter_append {room opened factors : Nat}
    {apply : Nat → String → Float → Evaluation ρ Float} {steps : List Step} {last : Step}
    {stack : List Float} {operand value : Float} {state : EvalState ρ}
    (hoperand : steps.foldlM (takeStep room apply) stack state
      = if opened + 1 + factors ≤ room then (.ok (operand :: stack), state)
        else (.error (.nestingLimit nestingLimit), state))
    (hlast : opened < room →
      takeStep room apply (operand :: stack) last state = (.ok (value :: stack), state)) :
    (Step.enter opened :: (steps ++ [last])).foldlM (takeStep room apply) stack state
      = if opened + (factors + 1) ≤ room then (.ok (value :: stack), state)
        else (.error (.nestingLimit nestingLimit), state) := by
  rw [foldlM_takeStep_enter, List.foldlM_append, bind_apply, hoperand]
  by_cases hroom : opened + (factors + 1) ≤ room
  · have hopened : opened < room := by omega
    have hinner : opened + 1 + factors ≤ room := by omega
    rw [if_pos hopened, if_pos hinner, if_pos hroom]
    show [last].foldlM (takeStep room apply) (operand :: stack) state = _
    rw [List.foldlM_cons, bind_apply, hlast hopened]
    rfl
  · have hinner : ¬ opened + 1 + factors ≤ room := by omega
    rw [if_neg hroom, if_neg hinner]
    split_ifs <;> rfl

/-- The steps of a tree put its value on the stack, or meet the nesting limit. -/
theorem foldlM_takeStep_steps {room : Nat} {apply : Nat → String → Float → Evaluation ρ Float}
    {state : EvalState ρ} {tree : Tree}
    (happly : ∀ opened name function argument, opened < room →
      BuiltIn.ofName? name = some function →
      apply opened name argument state = (.ok (function.apply argument), state))
    (hsettled : tree.Settled state.environment) (opened : Nat) (stack : List Float) :
    (tree.steps opened).foldlM (takeStep room apply) stack state
      = if opened + tree.openFactors ≤ room then
          (.ok (tree.value state.environment.interpretation :: stack), state)
        else (.error (.nestingLimit nestingLimit), state) := by
  -- The state is the same at the end, so the factors that are open decide and nothing else.
  induction tree generalizing opened stack with
  | number text =>
      rw [Tree.steps, foldlM_takeStep_enter, Tree.openFactors]
      rfl
  | variableName name =>
      obtain ⟨value, hvalue⟩ := Option.isSome_iff_exists.1 hsettled
      have hload : [Step.load name].foldlM (takeStep room apply) stack state
          = (.ok (value :: stack), state) := by
        rw [List.foldlM_cons, bind_apply, takeStep, bind_apply, resolve_of_value? hvalue]
        rfl
      have hmeaning : state.environment.interpretation.variableName name = value := by
        show (state.environment.value? name).getD 0 = value
        rw [hvalue, Option.getD_some]
      rw [Tree.steps, foldlM_takeStep_enter, hload, Tree.openFactors, Tree.value, hmeaning]
      rfl
  | parenthesis inner ih =>
      rw [Tree.steps, foldlM_takeStep_enter, ih hsettled, Tree.openFactors, Tree.value]
      split_ifs <;> first | rfl | omega
  | application function argument ih =>
      obtain ⟨hfunction, hargument⟩ := hsettled
      obtain ⟨builtIn, hbuiltIn⟩ := Option.isSome_iff_exists.1 hfunction
      refine foldlM_takeStep_enter_append (ih hargument _ _) fun hopened => ?_
      have hvalue (x : Float) :
          state.environment.interpretation.function function x = builtIn.apply x := by
        simp only [Environment.interpretation, hbuiltIn]
      rw [takeStep, bind_apply, happly _ _ _ _ hopened hbuiltIn, Tree.value, hvalue]
      rfl
  | negation operand ih =>
      exact foldlM_takeStep_enter_append (ih hsettled _ _) fun _ => rfl
  | operation operator left right ihLeft ihRight =>
      obtain ⟨hleft, hright⟩ := hsettled
      rw [Tree.steps, List.foldlM_append, List.foldlM_append, bind_apply, bind_apply,
        ihLeft hleft, Tree.openFactors, Tree.value]
      -- The two sides are not open at the same time.
      by_cases hroomLeft : opened + left.openFactors ≤ room
      · rw [if_pos hroomLeft]
        simp only [ihRight hright]
        by_cases hroomRight : opened + right.openFactors ≤ room
        · have hroom : opened + max left.openFactors right.openFactors ≤ room := by omega
          rw [if_pos hroomRight, if_pos hroom]
          rfl
        · have hroom : ¬ opened + max left.openFactors right.openFactors ≤ room := by omega
          rw [if_neg hroomRight, if_neg hroom]
      · have hroom : ¬ opened + max left.openFactors right.openFactors ≤ room := by omega
        rw [if_neg hroomLeft, if_neg hroom]

/-- A program with an offending token gives no value. -/
theorem offending_eq_none_of_runProgram {room : Nat}
    {apply : Nat → String → Float → Evaluation ρ Float} {program : Program}
    {state state' : EvalState ρ} {value : Float}
    (h : runProgram room apply program state = (.ok value, state')) :
    program.offending = none := by
  rw [runProgram, bind_apply] at h
  cases hoffending : program.offending with
  | none => rfl
  | some token =>
      rcases hfold : program.steps.foldlM (takeStep room apply) [] state with ⟨error | stack, state⟩
      · rw [hfold] at h
        cases h
      · rw [hfold, hoffending] at h
        cases h

/-- The program of a sentence computes the value of its tree. -/
theorem runProgram_of_sentence {room : Nat} {apply : Nat → String → Float → Evaluation ρ Float}
    {state : EvalState ρ} {tokens : List Token} {tree : Option Tree}
    (happly : ∀ opened name function argument, opened < room →
      BuiltIn.ofName? name = some function →
      apply opened name argument state = (.ok (function.apply argument), state))
    (hsentence : Sentence tokens tree)
    (hsettled : ∀ token ∈ tokens, token.Settled state.environment) :
    runProgram room apply { steps := Sentence.steps tree } state
      = if Sentence.openFactors tree ≤ room then
          (.ok (Sentence.value state.environment.interpretation tree), state)
        else (.error (.nestingLimit nestingLimit), state) := by
  cases hsentence with
  | empty => rfl
  | @sum _ tree hsum =>
      have hsteps := foldlM_takeStep_steps happly (hsum.settled hsettled) 0 []
      rw [runProgram, bind_apply, Sentence.steps, hsteps, Sentence.openFactors, Sentence.value,
        Nat.zero_add]
      split_ifs <;> rfl

/-- The evaluation of tokens about which nobody has to be asked: it changes nothing, and it gives
the value of the tree if there is one that keeps within the room. -/
theorem evaluateTokens_of_settled {room : Nat} {state : EvalState ρ} {tokens : TokenSequence}
    (hreadable : ∀ token ∈ tokens.body, token.Readable)
    (hsettled : ∀ token ∈ tokens.body, token.Settled state.environment) (value : Float) :
    (evaluateTokens room tokens state).1 = .ok value ↔
      ∃ tree, Sentence tokens.body tree ∧ Sentence.openFactors tree ≤ room ∧
        Sentence.value state.environment.interpretation tree = value := by
  have happly : ∀ opened name function argument, opened < room →
      BuiltIn.ofName? name = some function →
      (if opened < room then applyFunction (evaluateTokens (room - (opened + 1))) name argument
        else throw (.nestingLimit nestingLimit) : Evaluation ρ Float) state
        = (.ok (function.apply argument), state) := by
    intro opened name function argument hroom hname
    rw [if_pos hroom, applyFunction, hname]
    rfl
  have hbound := bindVariables_of_isBound fun token htoken => (hsettled token htoken).1
  rw [evaluateTokens, bind_apply, hbound]
  constructor
  · -- A value means that no token offends, so the tokens are a sentence and the program is its.
    intro h
    obtain ⟨state', hrun⟩ : ∃ state', runProgram room _ (Program.ofTokens tokens) state
        = (.ok value, state') := ⟨_, Prod.ext h rfl⟩
    obtain ⟨tree, hsentence⟩ :=
      Program.exists_sentence_of_offending_eq_none (offending_eq_none_of_runProgram hrun)
    rw [Program.ofTokens_of_sentence hsentence hreadable,
      runProgram_of_sentence happly hsentence hsettled] at hrun
    split_ifs at hrun with hroom
    · obtain ⟨hvalue, -⟩ := Prod.mk.inj hrun
      exact ⟨tree, hsentence, hroom, Except.ok.inj hvalue⟩
    · cases hrun
  · rintro ⟨tree, hsentence, hroom, rfl⟩
    rw [Program.ofTokens_of_sentence hsentence hreadable]
    simp only
    rw [runProgram_of_sentence happly hsentence hsettled, if_pos hroom]

/-- The evaluation of a text that can be split into tokens is that of its tokens. -/
theorem evaluateText_of_tokenize {state : EvalState ρ} {text : String} {tokens : TokenSequence}
    (h : tokenize state.environment.knownNames text = .ok tokens) :
    evaluateText text state = evaluateTokens nestingLimit tokens state := by
  have hread : readText text id state = (.ok tokens, state) := by
    rw [readText_apply, id, h]
  rw [evaluateText, bind_apply, hread]

end Evaluation

/-! ## Expressions about which nobody has to be asked -/

/-- Where every variable is bound and every function built in, an expression has a value exactly if
it is a sentence that keeps within the nesting limit.  The value is that of its only tree. -/
theorem Evaluator.evaluate_eq_ok_iff_sentence {ρ : Type} [Resolver ρ] {evaluator : Evaluator ρ}
    {tokens : TokenSequence} (hlexed : evaluator.tokenize evaluator.expression = .ok tokens)
    (hsettled : ∀ token ∈ tokens.body, token.Settled evaluator.environment) :
    (∀ tree tree', Sentence tokens.body tree → Sentence tokens.body tree' → tree = tree') ∧
    ∀ value, evaluator.evaluate.result = .ok value ↔
      ∃ tree, Sentence tokens.body tree ∧ Sentence.openFactors tree ≤ nestingLimit ∧
        Sentence.value evaluator.environment.interpretation tree = value := by
  refine ⟨fun tree tree' => Sentence.unique, fun value => ?_⟩
  have htokens : Reckoner.tokenize evaluator.environment.knownNames evaluator.expression
      = .ok tokens := by
    rw [Evaluator.tokenize] at hlexed
    split at hlexed
    · rename_i read hread
      rw [hread, Except.ok.inj hlexed]
    · cases hlexed
  show (Evaluation.evaluateText evaluator.expression
    { environment := evaluator.environment, resolver := evaluator.resolver }).1 = .ok value ↔ _
  rw [Evaluation.evaluateText_of_tokenize htokens]
  exact Evaluation.evaluateTokens_of_settled
    (readable_of_tokenize htokens) hsettled value

/-- The sign takes the application, the product the sign, the difference the product. -/
theorem Evaluator.evaluate_difference_of_constants :
    (evaluate { expression := "2-e*-sqrt(pi)", resolver := Silent.mk }).result = .ok
      (Numeral.valueOf "2" - Float.ofBits 0x4005BF0A8B145769 *
        -(Float.ofBits 0x400921FB54442D18).sqrt) := by
  let evaluator : Evaluator Silent := { expression := "2-e*-sqrt(pi)", resolver := {} }
  let tokens : TokenSequence :=
    { body := [⟨.number, "2", 0⟩, ⟨.minus, "-", 1⟩, ⟨.variableName, "e", 2⟩, ⟨.star, "*", 3⟩,
        ⟨.minus, "-", 4⟩, ⟨.functionName, "sqrt", 5⟩, ⟨.leftParen, "(", 9⟩,
        ⟨.variableName, "pi", 10⟩, ⟨.rightParen, ")", 12⟩]
      endPosition := 13
      body_kind := by decide }
  have hlexed : evaluator.tokenize evaluator.expression = .ok tokens := by decide +kernel
  have hsettled : ∀ token ∈ tokens.body, token.Settled evaluator.environment := by
    unfold Token.Settled
    decide +kernel
  have htwo : Derives .factor [⟨.number, "2", 0⟩] _ := .number rfl
  have he : Derives .factor [⟨.variableName, "e", 2⟩] _ := .variableName rfl
  have hpi : Derives .factor [⟨.variableName, "pi", 10⟩] _ := .variableName rfl
  have hparenthesis : Derives .factor
      (⟨.leftParen, "(", 9⟩ :: ([⟨.variableName, "pi", 10⟩] ++ [⟨.rightParen, ")", 12⟩])) _ :=
    .parenthesis rfl (.sumOfProduct (.productOfFactor hpi)) rfl
  have hroot : Derives .factor (⟨.functionName, "sqrt", 5⟩ :: _) _ :=
    .application rfl hparenthesis
  have hnegation : Derives .factor (⟨.minus, "-", 4⟩ :: _) _ := .negation rfl hroot
  have hproduct : Derives .product ([⟨.variableName, "e", 2⟩] ++ ⟨.star, "*", 3⟩ :: _) _ :=
    .product (.productOfFactor he) rfl hnegation
  have hsum : Derives .sum ([⟨.number, "2", 0⟩] ++ ⟨.minus, "-", 1⟩ :: _) _ :=
    .sum (.sumOfProduct (.productOfFactor htwo)) rfl hproduct
  exact ((Evaluator.evaluate_eq_ok_iff_sentence hlexed hsettled).2 _).2
    ⟨_, .sum hsum, by decide, rfl⟩

end Reckoner
