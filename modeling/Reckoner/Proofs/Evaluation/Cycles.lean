/-
  Reckoner.Proofs.Evaluation.Cycles

  A function that reaches itself gives no value (`Evaluator.evaluate_reached`).

  If an expression has a value, none of the functions that it reaches through the tables reaches
  itself, and there is a bound on the chains of functions that reach each other.  Conversely, where
  nothing else is wrong with the expression and the bodies that it reaches, the nesting limit is the
  only error that there can be: so that is what a function that reaches itself comes to.
-/
import Reckoner.Proofs.Evaluation.CallDepth
import Reckoner.Proofs.Evaluation.Frame

namespace Reckoner

open Relation

/-! ## Expressions with which nothing is wrong -/

namespace Tables

/-- The name has a value or is given one when it is asked for. -/
def Answers (tables : Tables) (environment : Environment) (name : String) : Prop :=
  environment.isBound name ∨ (tables.«variables».find? name).isSome

/-- The text is an expression, and its variables but for the hidden one have values. -/
def Supports (tables : Tables) (environment : Environment) (names : KnownNames)
    (hidden : Option String) (text : String) : Prop :=
  ∃ tokens tree, tokenize names text = .ok tokens ∧ Sentence tokens.body tree ∧
    ∀ token ∈ tokens.body, token.kind = .variableName → hidden ≠ some token.text →
      tables.Answers environment token.text

/-- The function has a body, and nothing is wrong with it. -/
def Defines (tables : Tables) (environment : Environment) (name : String) : Prop :=
  ∃ function, tables.functions.find? name = some function ∧ isIdentifier function.placeholder ∧
    tables.Supports environment (environment.knownNames.adding function.placeholder)
      (some function.placeholder) function.body

end Tables

/-! ## Evaluations that fail at the nesting limit only -/

/-- The tokens are an expression.  Their variables have values, and their functions are among the
members. -/
structure Sound (start : EvalState Tables) (members : String → Prop) (scope : Scope)
    (tokens : TokenSequence) : Prop where
  sentence : ∃ tree, Sentence tokens.body tree
  readable : ∀ token ∈ tokens.body, token.Readable
  known : ∀ token ∈ tokens.body, token.kind = .variableName → scope.value? token.text = none →
    start.environment.isKnown token.text
  answers : ∀ token ∈ tokens.body, token.kind = .variableName → scope.value? token.text = none →
    start.resolver.Answers start.environment token.text
  functions : ∀ token ∈ tokens.body, token.kind = .functionName → members token.text

/-- The members that are not built in have bodies that can be evaluated with any argument. -/
def Complete (start : EvalState Tables) (members : String → Prop) : Prop :=
  ∀ name, members name → BuiltIn.ofName? name = none →
    ∃ function tokens, start.resolver.functions.find? name = some function ∧
      isIdentifier function.placeholder ∧
      tokenize (start.environment.knownNames.adding function.placeholder) function.body
        = .ok tokens ∧
      ∀ argument, Sound start members (some ⟨function.placeholder, argument⟩) tokens

namespace Evaluation

variable {α : Type} {start : EvalState Tables} {members : String → Prop} {scope : Scope}
  {tokens : TokenSequence}

/-- From what the start has led to, the computation fails at the nesting limit or not at all. -/
def Limited (start : EvalState Tables) (computation : Evaluation Tables α)
    (property : α → Prop) : Prop :=
  Yields (Extended start) (· = .nestingLimit nestingLimit) computation property

theorem limited_of_keeps {computation : Evaluation Tables α} {property : α → Prop}
    (hkeeps : Keeps Extended computation)
    (hvalue : ∀ requests state, Extends requests start state →
      ∃ value, (computation state).1 = .ok value ∧ property value) :
    Limited start computation property := by
  intro state hstate
  obtain ⟨requests, hextends⟩ := hstate
  obtain ⟨value, hresult, hproperty⟩ := hvalue requests state hextends
  refine ⟨stable_extended.trans _ _ _ ⟨requests, hextends⟩ (hkeeps state), ?_⟩
  rw [hresult]
  exact hproperty

theorem limited_resolve {name : String} (hknown : start.environment.isKnown name)
    (hanswers : start.resolver.Answers start.environment name) :
    Limited start (resolve name) fun _ => True := by
  refine limited_of_keeps (keeps_extended_resolve name) fun requests state hextends => ?_
  cases hbound : state.environment.value? name with
  | some value => exact ⟨value, by rw [resolve_of_value? hbound], trivial⟩
  | none =>
      -- What was bound at the start is bound still, so the name is in the table.
      have hgiven : (start.resolver.«variables».find? name).isSome := by
        refine hanswers.resolve_left fun hstart => ?_
        obtain ⟨value, hvalue⟩ := Option.isSome_iff_exists.1 hstart
        rw [hextends.bound name value hvalue] at hbound
        cases hbound
      obtain ⟨value, hvalue⟩ := Option.isSome_iff_exists.1 hgiven
      have hknown' : state.environment.isKnown name := by
        rwa [Environment.isKnown_eq_of_names_eq hextends.names]
      refine ⟨value, ?_, trivial⟩
      rw [resolve_of_value?_eq_none hknown' hbound, hextends.resolver_eq,
        Tables.value_of_some hvalue]

theorem limited_askFunction {name : String} {function : UserFunction}
    (h : start.resolver.functions.find? name = some function) :
    Limited start (askFunction name) (· = function) := by
  refine limited_of_keeps (keeps_extended_askFunction name) fun requests state hextends => ?_
  have hanswer := Tables.function_of_some h
  rw [← hextends.resolver_eq] at hanswer
  exact ⟨function, by rw [askFunction_of_ok hanswer], rfl⟩

theorem limited_readText {text : String} {extend : KnownNames → KnownNames}
    (h : tokenize (extend start.environment.knownNames) text = .ok tokens) :
    Limited start (readText text extend) (· = tokens) := by
  rintro state ⟨requests, hextends⟩
  rw [readText_apply, Environment.knownNames_eq_of_names_eq hextends.names, h]
  exact ⟨⟨requests, hextends⟩, rfl⟩

theorem limited_lookUp {name : String}
    (hknown : scope.value? name = none → start.environment.isKnown name)
    (hanswers : scope.value? name = none → start.resolver.Answers start.environment name) :
    Limited start (scope.lookUp resolve name) fun _ => True := by
  rw [Scope.lookUp]
  cases hvalue : scope.value? name with
  | some value => exact yields_pure trivial
  | none => exact limited_resolve (hknown hvalue) (hanswers hvalue)

theorem limited_bindVariables (h : Sound start members scope tokens) :
    Limited start (scope.bindVariables resolve tokens.body) fun _ => True := by
  refine yields_forM fun token htoken => ?_
  obtain ⟨hmem, hkind⟩ := List.mem_filter.1 htoken
  have hvariable : token.kind = .variableName := by simpa using hkind
  exact (limited_lookUp (h.known token hmem hvariable) (h.answers token hmem hvariable)).discard

theorem limited_applyFunction {evaluate : Scope → TokenSequence → Evaluation Tables Float}
    (hcomplete : Complete start members)
    (hevaluate : ∀ scope tokens, Sound start members scope tokens →
      Limited start (evaluate scope tokens) fun _ => True)
    {name : String} (hname : members name) (argument : Float) :
    Limited start (Scope.applyFunction evaluate name argument) fun _ => True := by
  rw [Scope.applyFunction]
  cases hbuiltIn : BuiltIn.ofName? name with
  | some function => exact yields_pure trivial
  | none =>
      obtain ⟨function, tokens, hfunction, hplaceholder, hlexed, hsound⟩ :=
        hcomplete name hname hbuiltIn
      refine (limited_askFunction hfunction).bind ?_
      rintro _ rfl
      rw [if_pos hplaceholder]
      refine (limited_readText hlexed).bind ?_
      rintro _ rfl
      exact hevaluate _ _ (hsound argument)

theorem limited_takeStep {room : Nat} {apply : Nat → String → Float → Evaluation Tables Float}
    (h : Sound start members scope tokens) (stack : List Float)
    (happly : ∀ opened name argument, members name →
      Limited start (apply opened name argument) fun _ => True)
    {step : Step} (hstep : step ∈ (Program.ofTokens tokens).steps) :
    Limited start (scope.takeStep resolve room apply stack step) fun _ => True := by
  cases step with
  | load name =>
      obtain ⟨token, htoken, hkind, rfl⟩ := Program.exists_of_load_mem_steps hstep
      exact (limited_lookUp (h.known token htoken hkind) (h.answers token htoken hkind)).bind
        fun _ _ => yields_pure trivial
  | apply name opened =>
      obtain ⟨⟨token, htoken, hkind, rfl⟩, -⟩ := Program.exists_of_apply_mem_steps hstep
      refine yields_takeStep stack rfl nofun ?_
      rintro _ _ argument ⟨⟩
      exact happly _ _ argument (h.functions token htoken hkind)
  | enter | literal | negate | combine => exact yields_takeStep stack rfl nofun nofun

/-- The evaluation of an expression with which nothing is wrong. -/
theorem limited_evaluateTokens (hcomplete : Complete start members) (room : Nat)
    (h : Sound start members scope tokens) :
    Limited start (scope.evaluateTokens resolve room tokens) fun _ => True := by
  -- A body has less room than the application it belongs to.
  induction room using Nat.strongRecOn generalizing scope tokens with
  | ind room ih =>
      have hoffending : (Program.ofTokens tokens).offending = none := by
        obtain ⟨tree, hsentence⟩ := h.sentence
        rw [Program.ofTokens_of_sentence hsentence h.readable]
      rw [Scope.evaluateTokens]
      refine (limited_bindVariables h).bind fun _ _ => ?_
      rw [Scope.runProgram, hoffending]
      refine (yields_foldlM (fun step hstep stack => limited_takeStep h stack ?_ hstep) []).bind
        fun stack _ => yields_pure trivial
      intro opened name argument hname
      by_cases hroom : opened < room
      · rw [if_pos hroom]
        exact limited_applyFunction hcomplete (fun _ _ => ih _ (by omega)) hname argument
      · rw [if_neg hroom]
        exact yields_throw rfl

end Evaluation

/-! ## Texts and bodies with which nothing is wrong -/

theorem Sound.of_tokenize {start : EvalState Tables} {members : String → Prop} {scope : Scope}
    {names : KnownNames} {text : String} {tokens : TokenSequence} {tree : Option Tree}
    (hlexed : tokenize names text = .ok tokens) (hsentence : Sentence tokens.body tree)
    (hknown : Takes.KnownVariables scope tokens.body start.environment.knownNames)
    (hanswers : ∀ token ∈ tokens.body, token.kind = .variableName →
      scope.map Binding.placeholder ≠ some token.text →
      start.resolver.Answers start.environment token.text)
    (hcalls : ∀ called, Calls text called → members called) : Sound start members scope tokens where
  sentence := ⟨tree, hsentence⟩
  readable := readable_of_tokenize hlexed
  known := hknown
  answers := fun token htoken hkind hvalue =>
    hanswers token htoken hkind (Scope.value?_eq_none_iff.1 hvalue)
  functions := fun token htoken hkind =>
    hcalls _ ((calls_iff_of_tokenize hlexed).2 ⟨token, htoken, hkind, rfl⟩)

theorem complete_of_defines {start : EvalState Tables} {members : String → Prop}
    (hdefines : ∀ name, members name → BuiltIn.ofName? name = none →
      start.resolver.Defines start.environment name)
    (hclosed : ∀ name called, members name → start.resolver.Reaches name called →
      members called) : Complete start members := by
  intro name hname hbuiltIn
  obtain ⟨function, hfunction, hplaceholder, tokens, tree, hlexed, hsentence, hanswers⟩ :=
    hdefines name hname hbuiltIn
  refine ⟨function, tokens, hfunction, hplaceholder, hlexed, fun argument => ?_⟩
  exact .of_tokenize hlexed hsentence (Takes.knownVariables_of_tokenize hlexed) hanswers
    fun called hcalled => hclosed name called hname ⟨hbuiltIn, function, hfunction, hcalled⟩

namespace Evaluator

/-- The function is called by the expression or reached from one that is. -/
def Reached (evaluator : Evaluator Tables) (name : String) : Prop :=
  ∃ called, Calls evaluator.expression called ∧
    ReflTransGen evaluator.resolver.Reaches called name

/-- Where nothing is wrong with the expression and the bodies it reaches, the nesting limit is the
only error. -/
theorem result_of_supports {evaluator : Evaluator Tables}
    (hsupports : evaluator.resolver.Supports evaluator.environment
      evaluator.environment.knownNames none evaluator.expression)
    (hdefines : ∀ name, evaluator.Reached name → BuiltIn.ofName? name = none →
      evaluator.resolver.Defines evaluator.environment name) :
    (∃ value, evaluator.evaluate.result = .ok value) ∨
      evaluator.evaluate.result = .error (.nestingLimit nestingLimit) := by
  let start : EvalState Tables :=
    { environment := evaluator.environment, resolver := evaluator.resolver }
  obtain ⟨tokens, tree, hlexed, hsentence, hanswers⟩ := hsupports
  have hcomplete : Complete start evaluator.Reached :=
    complete_of_defines hdefines fun name called ⟨first, hfirst, hreached⟩ hreaches =>
      ⟨first, hfirst, hreached.tail hreaches⟩
  have hsound : Sound start evaluator.Reached none tokens :=
    .of_tokenize hlexed hsentence
      (fun token htoken hkind _ => knownIn_of_tokenize hlexed token htoken hkind) hanswers
      fun called hcalled => ⟨called, hcalled, .refl⟩
  have hlimited : Evaluation.Limited start (Evaluation.evaluateText evaluator.expression)
      fun _ => True := by
    rw [Scope.evaluateText_eq]
    refine (Evaluation.limited_readText hlexed).bind ?_
    rintro _ rfl
    exact Evaluation.limited_evaluateTokens hcomplete nestingLimit hsound
  obtain ⟨-, hresult⟩ := hlimited start (Evaluation.stable_extended.refl start)
  show (∃ value, (Evaluation.evaluateText evaluator.expression start).1 = .ok value) ∨
    (Evaluation.evaluateText evaluator.expression start).1 = .error (.nestingLimit nestingLimit)
  cases houtcome : (Evaluation.evaluateText evaluator.expression start).1 with
  | ok value => exact .inl ⟨value, rfl⟩
  | error error =>
      rw [houtcome] at hresult
      exact .inr (congrArg Except.error hresult)

/-- If an expression has a value, all functions that it reaches and that are not built in have
bodies with placeholders, none reaches itself, and no chain of them has more than 126 members.
Conversely, where nothing is wrong with the expression and the bodies it reaches, a function that
reaches itself comes to the nesting limit. -/
theorem evaluate_reached (evaluator : Evaluator Tables) :
    (∀ value, evaluator.evaluate.result = .ok value →
      (∀ name, evaluator.Reached name → BuiltIn.ofName? name = none →
        ∃ function, evaluator.resolver.functions.find? name = some function ∧
          isIdentifier function.placeholder) ∧
      (∀ name, evaluator.Reached name → ¬ TransGen evaluator.resolver.Reaches name name) ∧
      ∀ chain : List String, chain.IsChain evaluator.resolver.Reaches →
        (∀ first ∈ chain.head?, Calls evaluator.expression first) →
        (∀ name ∈ chain, BuiltIn.ofName? name = none) → chain.length ≤ 126) ∧
    (evaluator.resolver.Supports evaluator.environment evaluator.environment.knownNames none
        evaluator.expression →
      (∀ name, evaluator.Reached name → BuiltIn.ofName? name = none →
        evaluator.resolver.Defines evaluator.environment name) →
      ∀ name, evaluator.Reached name → TransGen evaluator.resolver.Reaches name name →
        evaluator.evaluate.result = .error (.nestingLimit 128)) := by
  have hbounded (value : Float) (hvalue : evaluator.evaluate.result = .ok value) (name : String)
      (hname : evaluator.Reached name) : evaluator.resolver.Bounded (nestingLimit - 2) name := by
    obtain ⟨called, hcalls, hreached⟩ := hname
    exact (bounded_of_evaluate hvalue hcalls).of_reflTransGen hreached
  refine ⟨fun value hvalue => ⟨?_, ?_, ?_⟩, ?_⟩
  · intro name hname hbuiltIn
    obtain ⟨-, function, -, hfunction, hplaceholder, -⟩ :=
      (hbounded value hvalue name hname).exists_function hbuiltIn
    exact ⟨function, hfunction, hplaceholder⟩
  · exact fun name hname => (hbounded value hvalue name hname).not_transGen_self
  · intro chain hchain hfirst hnames
    cases chain with
    | nil => exact Nat.zero_le 126
    | cons first rest =>
        have hcalls : Calls evaluator.expression first := hfirst first rfl
        exact (bounded_of_evaluate hvalue hcalls).length_le hchain hnames
  · intro hsupports hdefines name hname hcycle
    rcases result_of_supports hsupports hdefines with ⟨value, hvalue⟩ | herror
    · exact absurd hcycle (hbounded value hvalue name hname).not_transGen_self
    · exact herror

/-- There is a value where a function calls another one, and then that one does not reach itself.
There is none where the body of a function calls it with a variable that is asked for. -/
theorem evaluate_reached_itself :
    ((evaluate { expression := "f(3)",
                 resolver := ({ functions := .ofList [("f", ⟨"t", "g(t)+1"⟩), ("g", ⟨"s", "s*2"⟩)]
                              } : Tables) }).result = .ok 7 ∧
      ¬ TransGen (Tables.Reaches
        { functions := .ofList [("f", ⟨"t", "g(t)+1"⟩), ("g", ⟨"s", "s*2"⟩)] }) "g" "g") ∧
    (evaluate { expression := "f(1)", environment := .resetConventional .initial,
                resolver := ({ «variables» := .ofList [("x", 2)],
                               functions := .ofList [("f", ⟨"t", "f(x)"⟩)] } : Tables)
              }).result = .error (.nestingLimit 128) := by
  constructor
  · let evaluator : Evaluator Tables :=
      { expression := "f(3)",
        resolver := { functions := .ofList [("f", ⟨"t", "g(t)+1"⟩), ("g", ⟨"s", "s*2"⟩)] } }
    have hvalue : evaluator.evaluate.result = .ok 7 := by decide +kernel
    have hexpression : Reckoner.tokenize evaluator.environment.knownNames "f(3)"
        = .ok (.ofList [⟨.functionName, "f", 0⟩, ⟨.leftParen, "(", 1⟩, ⟨.number, "3", 2⟩,
            ⟨.rightParen, ")", 3⟩]) := by
      decide +kernel
    have hbody : Reckoner.tokenize (evaluator.environment.knownNames.adding "t") "g(t)+1"
        = .ok (.ofList [⟨.functionName, "g", 0⟩, ⟨.leftParen, "(", 1⟩, ⟨.variableName, "t", 2⟩,
            ⟨.rightParen, ")", 3⟩, ⟨.plus, "+", 4⟩, ⟨.number, "1", 5⟩]) := by
      decide +kernel
    have hcalls : Calls "f(3)" "f" := (calls_iff_of_tokenize hexpression).2 (by decide +kernel)
    have hreaches : evaluator.resolver.Reaches "f" "g" :=
      ⟨by decide +kernel, ⟨"t", "g(t)+1"⟩, by decide +kernel,
        (calls_iff_of_tokenize hbody).2 (by decide +kernel)⟩
    have hreached : evaluator.Reached "g" := ⟨"f", hcalls, .single hreaches⟩
    obtain ⟨-, hacyclic, -⟩ := (evaluate_reached evaluator).1 7 hvalue
    exact ⟨hvalue, hacyclic "g" hreached⟩
  · let evaluator : Evaluator Tables :=
      { expression := "f(1)", environment := .resetConventional .initial,
        resolver := { «variables» := .ofList [("x", 2)],
                      functions := .ofList [("f", ⟨"t", "f(x)"⟩)] } }
    -- The expression and the body differ in what is in the parentheses.
    let tokens (leaf : Token) (hleaf : leaf.kind ≠ .endOfInput) : TokenSequence :=
      { body := [⟨.functionName, "f", 0⟩, ⟨.leftParen, "(", 1⟩, leaf, ⟨.rightParen, ")", 3⟩]
        endPosition := 4
        body_kind := by simpa using hleaf }
    have hsentence (leaf : Token) (hleaf : leaf.kind ≠ .endOfInput) (tree : Tree)
        (hfactor : Derives .factor [leaf] tree) :
        ∃ tree, Sentence (tokens leaf hleaf).body tree := by
      have hparenthesis : Derives .factor
          (⟨.leftParen, "(", 1⟩ :: ([leaf] ++ [⟨.rightParen, ")", 3⟩])) _ :=
        .parenthesis rfl (.sumOfProduct (.productOfFactor hfactor)) rfl
      exact ⟨_, .sum (.sumOfProduct (.productOfFactor (.application rfl hparenthesis)))⟩
    have hexpression : Reckoner.tokenize evaluator.environment.knownNames "f(1)"
        = .ok (tokens ⟨.number, "1", 2⟩ nofun) := by decide +kernel
    have hbody : Reckoner.tokenize (evaluator.environment.knownNames.adding "t") "f(x)"
        = .ok (tokens ⟨.variableName, "x", 2⟩ nofun) := by decide +kernel
    have hcalls (called : String) : Calls "f(1)" called ↔ called = "f" := by
      rw [calls_iff_of_tokenize hexpression]
      simp [tokens, eq_comm]
    have hcallsBody (called : String) : Calls "f(x)" called ↔ called = "f" := by
      rw [calls_iff_of_tokenize hbody]
      simp [tokens, eq_comm]
    have hfunction : evaluator.resolver.functions.find? "f" = some ⟨"t", "f(x)"⟩ := by
      decide +kernel
    have hreaches (called : String) : evaluator.resolver.Reaches "f" called ↔ called = "f" := by
      have hbuiltIn : BuiltIn.ofName? "f" = none := by decide +kernel
      simp [Tables.Reaches, hfunction, hbuiltIn, hcallsBody]
    have hreached (name : String) (h : evaluator.Reached name) : name = "f" := by
      obtain ⟨first, hfirst, hmore⟩ := h
      induction hmore with
      | refl => exact (hcalls first).1 hfirst
      | tail _ hstep ih => exact (hreaches _).1 (ih ▸ hstep)
    have hcycle : TransGen evaluator.resolver.Reaches "f" "f" := .single ((hreaches "f").2 rfl)
    obtain ⟨-, hlimit⟩ := evaluate_reached evaluator
    refine hlimit ?_ ?_ "f" ⟨"f", (hcalls "f").2 rfl, .refl⟩ hcycle
    · obtain ⟨tree, htree⟩ := hsentence ⟨.number, "1", 2⟩ nofun _ (.number rfl)
      exact ⟨_, tree, hexpression, htree, by simp [tokens]⟩
    · intro name hname _
      obtain rfl := hreached name hname
      obtain ⟨tree, htree⟩ := hsentence ⟨.variableName, "x", 2⟩ nofun _ (.variableName rfl)
      refine ⟨⟨"t", "f(x)"⟩, hfunction, by decide +kernel, _, tree, hbody, htree, ?_⟩
      have hanswers : evaluator.resolver.Answers evaluator.environment "x" :=
        .inr (by decide +kernel)
      simpa [tokens] using hanswers

end Evaluator

end Reckoner
