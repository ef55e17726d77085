/-
  Reckoner.Proofs.Evaluation.Frame

  What an evaluation leaves of its environment (`Evaluator.evaluate_frame`).

  No name becomes known or forgotten, and no value changes.  An unbound name becomes bound if and
  only if it was asked for and answered, to the answer.  Since the values at the end are those of
  the whole evaluation, every variable could have been read from the environment at the end.

  The resolver is a state machine, so what it has answered to a sequence of requests can be told
  from its state before the first (`exchanges`).
-/
import Reckoner.Evaluator
import Reckoner.Proofs.Evaluation.Resolve
import Reckoner.Proofs.Evaluation.Scope

namespace Reckoner

/-! ## Requests and answers -/

/-- A request with its answer. -/
inductive Exchange
  | value (name : String) (answer : Except String Float)
  | function (name : String) (answer : Except String UserFunction)

section Exchanges

variable {ρ : Type} [Resolver ρ]

/-- The answer to a request, and the resolver after it. -/
def Request.pose (resolver : ρ) : Request → Exchange × ρ
  | .value name => ((Resolver.value resolver name).map (.value name) id)
  | .function name => ((Resolver.function resolver name).map (.function name) id)

/-- The answers to requests, one after the other. -/
def exchanges (resolver : ρ) : List Request → List Exchange
  | [] => []
  | request :: rest => (request.pose resolver).1 :: exchanges (request.pose resolver).2 rest

/-- The resolver after requests, one after the other. -/
def resolverAfter (resolver : ρ) : List Request → ρ
  | [] => resolver
  | request :: rest => resolverAfter (request.pose resolver).2 rest

theorem exchanges_append (resolver : ρ) (first second : List Request) :
    exchanges resolver (first ++ second)
      = exchanges resolver first ++ exchanges (resolverAfter resolver first) second := by
  induction first generalizing resolver with
  | nil => rfl
  | cons request rest ih => exact congrArg (List.cons _) (ih _)

theorem resolverAfter_append (resolver : ρ) (first second : List Request) :
    resolverAfter resolver (first ++ second)
      = resolverAfter (resolverAfter resolver first) second := by
  induction first generalizing resolver with
  | nil => rfl
  | cons request rest ih => exact ih _

theorem exchanges_value {resolver next : ρ} {name : String} {answer : Except String Float}
    (h : Resolver.value resolver name = (answer, next)) :
    exchanges resolver [.value name] = [.value name answer] := by
  rw [exchanges, exchanges, Request.pose, h]
  rfl

theorem exchanges_function {resolver next : ρ} {name : String}
    {answer : Except String UserFunction} (h : Resolver.function resolver name = (answer, next)) :
    exchanges resolver [.function name] = [.function name answer] := by
  rw [exchanges, exchanges, Request.pose, h]
  rfl

theorem value_mem_of_mem_exchanges {resolver : ρ} {requests : List Request} {name : String}
    {answer : Except String Float} (h : .value name answer ∈ exchanges resolver requests) :
    .value name ∈ requests := by
  induction requests generalizing resolver with
  | nil => cases h
  | cons request rest ih =>
      rcases List.mem_cons.1 h with h | h
      · cases request with
        | value asked =>
            obtain ⟨rfl, -⟩ := Exchange.value.inj h
            exact List.mem_cons_self
        | function asked => cases h
      · exact List.mem_cons_of_mem _ (ih h)

/-! ## States before and after -/

/-- What the requests make of a state: the known names are the same, what was bound has its value,
and a name that was not has the value that was answered, if one was. -/
structure Extends (requests : List Request) (before after : EvalState ρ) : Prop where
  asked : after.asked = before.asked ++ requests
  resolver : after.resolver = resolverAfter before.resolver requests
  names : after.environment.names = before.environment.names
  bound : ∀ name value, before.environment.value? name = some value →
    after.environment.value? name = some value
  unbound : ∀ name, .value name ∈ requests → before.environment.value? name = none
  answered : ∀ name value, before.environment.value? name = none →
    (after.environment.value? name = some value ↔
      .value name (.ok value) ∈ exchanges before.resolver requests)

namespace Extends

theorem refl (state : EvalState ρ) : Extends [] state state where
  asked := (List.append_nil _).symm
  resolver := rfl
  names := rfl
  bound := fun _ _ h => h
  unbound := nofun
  answered := fun name value h => by rw [h]; exact iff_of_false nofun List.not_mem_nil

/-- Requests after which others are made.  A name that the first have bound is not asked for again,
so the answer among the others can only be to a name that was still unbound. -/
theorem trans {requests requests' : List Request} {first second third : EvalState ρ}
    (h : Extends requests first second) (h' : Extends requests' second third) :
    Extends (requests ++ requests') first third where
  asked := by rw [h'.asked, h.asked, List.append_assoc]
  resolver := by rw [h'.resolver, h.resolver, resolverAfter_append]
  names := h'.names.trans h.names
  bound := fun name value hvalue => h'.bound name value (h.bound name value hvalue)
  unbound := by
    intro name hname
    rcases List.mem_append.1 hname with hname | hname
    · exact h.unbound name hname
    · cases hfirst : first.environment.value? name with
      | none => rfl
      | some value =>
          have hsecond := h'.unbound name hname
          rw [h.bound name value hfirst] at hsecond
          cases hsecond
  answered := by
    intro name value hfirst
    rw [exchanges_append, List.mem_append, ← h.answered name value hfirst, ← h.resolver]
    cases hsecond : second.environment.value? name with
    -- What the first requests have left unbound is decided by the others.
    | none => rw [h'.answered name value hsecond, or_iff_right nofun]
    -- What they have bound keeps its value, and the others do not ask for it.
    | some bound =>
        have hsettled : .value name (.ok value) ∉ exchanges second.resolver requests' := by
          intro hmem
          have hunbound := h'.unbound name (value_mem_of_mem_exchanges hmem)
          rw [hsecond] at hunbound
          cases hunbound
        rw [h'.bound name bound hsecond, or_iff_left hsettled]

end Extends

/-- Tables are the same whatever they are asked. -/
theorem Tables.pose_snd (tables : Tables) (request : Request) : (request.pose tables).2 = tables := by
  cases request <;> rfl

theorem Tables.resolverAfter_eq (tables : Tables) (requests : List Request) :
    resolverAfter tables requests = tables := by
  induction requests with
  | nil => rfl
  | cons request rest ih => rw [resolverAfter, pose_snd, ih]

theorem Extends.resolver_eq {requests : List Request} {before after : EvalState Tables}
    (h : Extends requests before after) : after.resolver = before.resolver := by
  rw [h.resolver, Tables.resolverAfter_eq]

/-! ## Every evaluation extends its state -/

/-- Some requests lead from the one state to the other. -/
def Extended (before after : EvalState ρ) : Prop :=
  ∃ requests, Extends requests before after

namespace Evaluation

/-- A refusal leaves the environment as it was. -/
theorem extends_of_refused {state : EvalState ρ} {name reason : String} {resolver : ρ}
    (hanswer : Resolver.value state.resolver name = (.error reason, resolver))
    (hunbound : state.environment.value? name = none) :
    Extends [.value name] state
      { state with resolver, asked := state.asked ++ [.value name] } where
  asked := rfl
  resolver := (congrArg Prod.snd hanswer).symm
  names := rfl
  bound := fun _ _ h => h
  unbound := fun other hother => (Request.value.inj (List.mem_singleton.1 hother)) ▸ hunbound
  answered := by
    intro other value hother
    rw [hother, exchanges_value hanswer]
    exact iff_of_false nofun (by simp)

/-- An answer binds the name. -/
theorem extends_of_answered {state : EvalState ρ} {name : String} {answer : Float} {resolver : ρ}
    (hanswer : Resolver.value state.resolver name = (.ok answer, resolver))
    (hknown : state.environment.isKnown name)
    (hunbound : state.environment.value? name = none) :
    Extends [.value name] state
      { environment := state.environment.set name (some answer), resolver,
        asked := state.asked ++ [.value name] } where
  asked := rfl
  resolver := (congrArg Prod.snd hanswer).symm
  names := Environment.names_set hknown _
  bound := by
    intro other value hother
    have hne : other ≠ name := by
      rintro rfl
      rw [hunbound] at hother
      cases hother
    rw [Environment.value?_set, if_neg hne, hother]
  unbound := fun other hother => (Request.value.inj (List.mem_singleton.1 hother)) ▸ hunbound
  answered := by
    intro other value hother
    rw [Environment.value?_set, exchanges_value hanswer, List.mem_singleton]
    by_cases hname : other = name
    · -- The name that was asked for has the value that was answered.
      rw [if_pos hname, hname]
      simp [eq_comm]
    · rw [if_neg hname, hother]
      simp [hname]

theorem keeps_extended_resolve (name : String) : Keeps (@Extended ρ _) (resolve name) := by
  intro state
  rcases resolve_cases name state with ⟨value, -, hresolve⟩ | ⟨-, hresolve⟩ |
    ⟨reason | value, resolver, hknown, hunbound, hanswer, hresolve⟩
  · rw [hresolve]
    exact ⟨[], .refl state⟩
  · rw [hresolve]
    exact ⟨[], .refl state⟩
  · rw [hresolve]
    exact ⟨_, extends_of_refused hanswer hunbound⟩
  · rw [hresolve]
    exact ⟨_, extends_of_answered hanswer hknown hunbound⟩

theorem keeps_extended_askFunction (name : String) : Keeps (@Extended ρ _) (askFunction name) := by
  intro state
  refine ⟨[.function name], ?_⟩
  exact {
    asked := rfl
    resolver := rfl
    names := rfl
    bound := fun _ _ h => h
    unbound := fun other hother => by simp at hother
    answered := fun other value hother => by
      rw [show (askFunction name state).2.environment = state.environment by rfl, hother]
      exact iff_of_false nofun fun hmem => by
        simpa using value_mem_of_mem_exchanges hmem }

theorem stable_extended : Stable (@Extended ρ _) where
  refl := fun state => ⟨[], .refl state⟩
  trans := fun _ _ _ ⟨_, h⟩ ⟨_, h'⟩ => ⟨_, h.trans h'⟩
  resolve := keeps_extended_resolve
  askFunction := keeps_extended_askFunction

/-- The evaluation of a text extends the state, whether it ends in a value or in an error. -/
theorem keeps_extended_evaluateText (text : String) :
    Keeps (@Extended ρ _) (evaluateText text) :=
  stable_extended.evaluateText text

end Evaluation

end Exchanges

/-! ## Reading from the environment at the end -/

section Reading

variable {ρ : Type}

/-- Resolves the name and then forgets its value for the one that the given environment has. -/
def Evaluation.resolveTo [Resolver ρ] (environment : Environment) (name : String) :
    Evaluation ρ Float := do
  discard (resolve name)
  return (environment.value? name).getD 0

/-- Whatever the state binds has the same value in the environment. -/
def Agrees (environment : Environment) (state : EvalState ρ) : Prop :=
  ∀ name value, state.environment.value? name = some value → environment.value? name = some value

/-- What is bound before is bound after, to the same value. -/
def Persists (before after : EvalState ρ) : Prop :=
  Agrees after.environment before

/-- The first computation changes no value, and the second is the same from all states from which
the first leads to values of the environment. -/
structure ReadsFrom {α : Type} (environment : Environment) (first second : Evaluation ρ α) :
    Prop where
  persists : Evaluation.Keeps Persists first
  same : ∀ state, Agrees environment (first state).2 → second state = first state

namespace ReadsFrom

open Evaluation

variable {environment : Environment} {α β : Type}

/-- A computation that changes no value. -/
theorem rfl_of_keeps {computation : Evaluation ρ α} (h : Keeps Persists computation) :
    ReadsFrom environment computation computation :=
  ⟨h, fun _ _ => rfl⟩

theorem pure (value : α) :
    ReadsFrom environment (Pure.pure value : Evaluation ρ α) (Pure.pure value) :=
  rfl_of_keeps fun _ _ _ h => h

theorem throw (error : EvalError) :
    ReadsFrom environment (MonadExcept.throw error : Evaluation ρ α) (MonadExcept.throw error) :=
  rfl_of_keeps fun _ _ _ h => h

/-- Values at the end of the first of two computations are still values at the end of the second,
so both read from the same environment. -/
theorem bind {first first' : Evaluation ρ α} {next next' : α → Evaluation ρ β}
    (hfirst : ReadsFrom environment first first')
    (hnext : ∀ value, ReadsFrom environment (next value) (next' value)) :
    ReadsFrom environment (first >>= next) (first' >>= next') where
  persists := keeps_bind (fun _ _ _ h h' name value hvalue => h' name value (h name value hvalue))
    hfirst.persists fun value => (hnext value).persists
  same := by
    intro state hagrees
    rw [bind_apply] at hagrees
    rw [bind_apply, bind_apply]
    rcases houtcome : first state with ⟨error | value, state'⟩
    · rw [houtcome] at hagrees
      rw [hfirst.same state (by rw [houtcome]; exact hagrees), houtcome]
    · rw [houtcome] at hagrees
      -- The second computation changes no value that the first has bound.
      have hfirstAgrees : Agrees environment (first state).2 := by
        rw [houtcome]
        exact fun name bound hbound =>
          hagrees name bound ((hnext value).persists state' name bound hbound)
      rw [hfirst.same state hfirstAgrees, houtcome]
      exact (hnext value).same state' hagrees

theorem foldlM {step step' : β → α → Evaluation ρ β}
    (hstep : ∀ value item, ReadsFrom environment (step value item) (step' value item))
    (items : List α) (value : β) :
    ReadsFrom environment (items.foldlM step value) (items.foldlM step' value) := by
  induction items generalizing value with
  | nil => exact pure value
  | cons item items ih => exact (hstep value item).bind ih

theorem readText (text : String) (extend : KnownNames → KnownNames) :
    ReadsFrom environment (Evaluation.readText text extend : Evaluation ρ TokenSequence)
      (Evaluation.readText text extend) := by
  refine rfl_of_keeps fun state name value h => ?_
  rw [readText_apply]
  cases tokenize (extend state.environment.knownNames) text <;> exact h

variable [Resolver ρ]

/-- The value that a name is resolved to is its value in the end. -/
theorem resolve (name : String) :
    ReadsFrom environment (Evaluation.resolve name : Evaluation ρ Float)
      (resolveTo environment name) where
  persists := by
    intro state
    obtain ⟨requests, h⟩ := keeps_extended_resolve name state
    exact h.bound
  same := by
    intro state hagrees
    rw [resolveTo, bind_apply, discard_apply]
    rcases houtcome : Evaluation.resolve name state with ⟨error | value, state'⟩
    · rfl
    · rw [houtcome] at hagrees
      -- The value is bound by now, so the environment has it too.
      have hvalue := hagrees name value (value?_of_resolve_eq_ok houtcome)
      rw [hvalue]
      rfl

theorem lookUp (scope : Scope) (name : String) :
    ReadsFrom environment (scope.lookUp Evaluation.resolve name : Evaluation ρ Float)
      (scope.lookUp (resolveTo environment) name) := by
  rw [Scope.lookUp, Scope.lookUp]
  cases scope.value? name with
  | some value => exact pure value
  | none => exact resolve name

theorem bindVariables (scope : Scope) (tokens : List Token) :
    ReadsFrom environment (scope.bindVariables Evaluation.resolve tokens : Evaluation ρ Unit)
      (scope.bindVariables (resolveTo environment) tokens) := by
  induction tokens with
  | nil => exact pure ()
  | cons token rest ih =>
      by_cases hkind : token.kind = .variableName
      · rw [Scope.bindVariables_cons_of_variable _ hkind,
          Scope.bindVariables_cons_of_variable _ hkind]
        exact ((lookUp scope token.text).bind fun _ => pure ()).bind fun _ => ih
      · rw [Scope.bindVariables_cons_of_ne _ hkind, Scope.bindVariables_cons_of_ne _ hkind]
        exact ih

theorem takeStep {scope : Scope} {room : Nat}
    {apply apply' : Nat → String → Float → Evaluation ρ Float}
    (happly : ∀ opened name argument,
      ReadsFrom environment (apply opened name argument) (apply' opened name argument))
    (stack : List Float) (step : Step) :
    ReadsFrom environment (scope.takeStep Evaluation.resolve room apply stack step)
      (scope.takeStep (resolveTo environment) room apply' stack step) := by
  cases step with
  | enter opened =>
      show ReadsFrom environment (if opened < room then _ else _) (if opened < room then _ else _)
      split_ifs
      · exact pure stack
      · exact throw _
  | literal value => exact pure _
  | load name => exact (lookUp scope name).bind fun value => pure _
  | negate => cases stack <;> exact pure _
  | combine operator => rcases stack with _ | ⟨right, _ | ⟨left, stack⟩⟩ <;> exact pure _
  | apply function opened =>
      cases stack with
      | nil => exact pure _
      | cons argument stack => exact (happly opened function argument).bind fun value => pure _

theorem applyFunction {evaluate evaluate' : Scope → TokenSequence → Evaluation ρ Float}
    (hevaluate : ∀ scope tokens,
      ReadsFrom environment (evaluate scope tokens) (evaluate' scope tokens))
    (name : String) (argument : Float) :
    ReadsFrom environment (Scope.applyFunction evaluate name argument)
      (Scope.applyFunction evaluate' name argument) := by
  rw [Scope.applyFunction, Scope.applyFunction]
  cases BuiltIn.ofName? name with
  | some function => exact pure _
  | none =>
      have hask : ReadsFrom environment (askFunction name : Evaluation ρ UserFunction)
          (askFunction name) := rfl_of_keeps fun _ _ _ h => h
      refine hask.bind fun function => ?_
      split_ifs
      · exact (readText _ _).bind fun tokens => hevaluate _ tokens
      · exact throw _

theorem evaluateTokens (room : Nat) (scope : Scope) (tokens : TokenSequence) :
    ReadsFrom environment
      (scope.evaluateTokens Evaluation.resolve room tokens : Evaluation ρ Float)
      (scope.evaluateTokens (resolveTo environment) room tokens) := by
  induction room using Nat.strongRecOn generalizing scope tokens with
  | ind room ih =>
      rw [Scope.evaluateTokens, Scope.evaluateTokens]
      refine (bindVariables scope tokens.body).bind fun _ => ?_
      refine (foldlM (takeStep fun opened name argument => ?_) _ []).bind fun stack => ?_
      · by_cases hroom : opened < room
        · rw [if_pos hroom, if_pos hroom]
          exact applyFunction (ih _ (by omega)) name argument
        · rw [if_neg hroom, if_neg hroom]
          exact throw _
      · cases (Program.ofTokens tokens).offending with
        | some token => exact throw _
        | none => exact pure _

theorem evaluateText (text : String) :
    ReadsFrom environment (Scope.evaluateText Evaluation.resolve text : Evaluation ρ Float)
      (Scope.evaluateText (resolveTo environment) text) :=
  (readText text id).bind fun tokens => evaluateTokens nestingLimit none tokens

end ReadsFrom

end Reading

/-! ## The frame -/

/-- What an evaluation changes, whatever its result: it binds the names that were asked for and
answered, each to the answer.  All other names keep their values or stay unbound, the resolver has
answered just the requests made, and reading every variable from the environment at the end would
have made no difference. -/
theorem Evaluator.evaluate_frame {ρ : Type} [Resolver ρ] (evaluator : Evaluator ρ) :
    evaluator.evaluate.evaluator.expression = evaluator.expression ∧
    evaluator.evaluate.evaluator.environment.names = evaluator.environment.names ∧
    evaluator.evaluate.evaluator.resolver
      = resolverAfter evaluator.resolver evaluator.evaluate.asked ∧
    (∀ name value, evaluator.value? name = some value →
      evaluator.evaluate.evaluator.value? name = some value) ∧
    (∀ name value, evaluator.value? name = none →
      (evaluator.evaluate.evaluator.value? name = some value ↔
        .value name (.ok value) ∈ exchanges evaluator.resolver evaluator.evaluate.asked)) ∧
    (∀ text, evaluator.evaluate.evaluator.tokenize text = evaluator.tokenize text) ∧
    evaluator.evaluate = evaluator.run (Scope.evaluateText
      (Evaluation.resolveTo evaluator.evaluate.evaluator.environment) evaluator.expression) := by
  obtain ⟨requests, h⟩ := Evaluation.keeps_extended_evaluateText evaluator.expression
    { environment := evaluator.environment, resolver := evaluator.resolver }
  have hasked : evaluator.evaluate.asked = requests := h.asked
  have hnames : evaluator.evaluate.evaluator.environment.names = evaluator.environment.names :=
    h.names
  rw [hasked]
  refine ⟨rfl, hnames, h.resolver, h.bound, h.answered, fun text => ?_, ?_⟩
  · rw [tokenize, tokenize, Environment.knownNames_eq_of_names_eq hnames]
  · have hreads : ReadsFrom evaluator.evaluate.evaluator.environment
        (Evaluation.evaluateText evaluator.expression : Evaluation ρ Float)
        (Scope.evaluateText (Evaluation.resolveTo evaluator.evaluate.evaluator.environment)
          evaluator.expression) := by
      rw [Scope.evaluateText_eq]
      exact ReadsFrom.evaluateText evaluator.expression
    -- The environment at the end agrees with itself.
    have hsame := hreads.same
      { environment := evaluator.environment, resolver := evaluator.resolver } fun _ _ h => h
    rw [run, hsame]
    rfl

/-- What was answered stays although the evaluation fails, and so does the constant. -/
theorem Evaluator.evaluate_frame_of_refusal :
    (evaluate { expression := "x+pi+y", environment := .resetConventional .initial,
                resolver := ({ values := [.ok 1, .error "why"] } : Script) }).evaluator.value? "x"
      = some 1 ∧
    (evaluate { expression := "x+pi+y", environment := .resetConventional .initial,
                resolver := ({ values := [.ok 1, .error "why"] } : Script) }).evaluator.value? "pi"
      = some (Float.ofBits 0x400921FB54442D18) := by
  let evaluator : Evaluator Script :=
    { expression := "x+pi+y", environment := .resetConventional .initial,
      resolver := { values := [.ok 1, .error "why"] } }
  obtain ⟨-, -, -, hbound, hanswered, -⟩ := Evaluator.evaluate_frame evaluator
  have hasked : evaluator.evaluate.asked = [.value "x", .value "y"] := by decide +kernel
  refine ⟨(hanswered "x" 1 (by decide +kernel)).2 ?_, hbound "pi" _ (by decide +kernel)⟩
  rw [hasked]
  exact List.mem_cons_self

end Reckoner
