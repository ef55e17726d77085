/-
  Reckoner.Proofs.Evaluation.Requests

  Which requests an evaluation makes, and in what order (`Evaluator.asked_evaluate`).

  Requests are told here without any arithmetic: all that matters is which names are bound, what
  the resolver answers, and the order in which the arguments of applications are complete.  First
  come the unbound variables, each once, in the order in which they occur; then, at every
  application of a function that is not built in, the function, and after it what its body asks
  for by the same rule.  The account ends with the first request that is refused and wherever the
  evaluation ends with an error.
-/
import Reckoner.Evaluator
import Reckoner.Proofs.Evaluation.Resolve
import Reckoner.Proofs.Evaluation.Scope
import Reckoner.Proofs.Syntax.Stacks

namespace Reckoner

/-! ## The order of applications -/

/-- The functions that a tree applies, each after those in its argument. -/
def Tree.applications : Tree → List String
  | .number _ => []
  | .variableName _ => []
  | .parenthesis inner => inner.applications
  | .application function argument => argument.applications ++ [function]
  | .negation operand => operand.applications
  | .operation _ left right => left.applications ++ right.applications

/-- The functions that an expression applies. -/
def Sentence.applications : Option Tree → List String
  | none => []
  | some tree => tree.applications

/-- The function that a step applies, if it is an application. -/
def Step.application? : Step → Option String
  | .apply function _ => some function
  | _ => none

theorem Tree.filterMap_application?_steps (tree : Tree) (opened : Nat) :
    (tree.steps opened).filterMap Step.application? = tree.applications := by
  induction tree generalizing opened with
  | number | variableName => rfl
  | parenthesis inner ih => exact ih (opened + 1)
  | application function argument ih | negation operand ih =>
      simp [Tree.steps, Tree.applications, List.filterMap_cons, Step.application?, ih]
  | operation operator left right ihLeft ihRight =>
      simp [Tree.steps, Tree.applications, List.filterMap_cons, Step.application?, ihLeft, ihRight]

/-- The program of a sentence applies the functions of its tree, inner ones before outer ones and
those on the left before those on the right. -/
theorem Program.applications_of_sentence {tokens : TokenSequence} {tree : Option Tree}
    (h : Sentence tokens.body tree) (hreadable : ∀ token ∈ tokens.body, token.Readable) :
    (ofTokens tokens).steps.filterMap Step.application? = Sentence.applications tree := by
  rw [ofTokens_of_sentence h hreadable]
  cases tree with
  | none => rfl
  | some tree => exact tree.filterMap_application?_steps 0

/-! ## Courses of requests -/

/-- What decides about requests: which names are bound, and the resolver. -/
structure Inquiry (ρ : Type) where
  isBound : String → Bool
  resolver : ρ

/-- Requests in order, and where they have led to; nothing if the evaluation has ended with an
error. -/
structure Course (ρ : Type) where
  requests : List Request
  reached : Option (Inquiry ρ)

namespace Course

variable {ρ : Type}

/-- The evaluation ends with an error. -/
def stopped : Course ρ :=
  ⟨[], none⟩

/-- A course continued by another, which is not reached if the first one stops. -/
def andThen (first : Course ρ) (next : Inquiry ρ → Course ρ) : Course ρ :=
  match first.reached with
  | some inquiry => ⟨first.requests ++ (next inquiry).requests, (next inquiry).reached⟩
  | none => first

end Course

namespace Inquiry

variable {ρ : Type}

/-- No request. -/
def proceed (inquiry : Inquiry ρ) : Course ρ :=
  ⟨[], some inquiry⟩

/-- Follows the steps of a program; `room` more factors may be opened, and `apply` is the course
of an application inside a number of open factors. -/
def follow (room : Nat) (apply : Nat → String → Inquiry ρ → Course ρ) :
    List Step → Inquiry ρ → Course ρ
  | [], inquiry => inquiry.proceed
  | .enter opened :: rest, inquiry =>
    if opened < room then follow room apply rest inquiry else .stopped
  | .apply function opened :: rest, inquiry =>
    (apply opened function inquiry).andThen (follow room apply rest)
  | _ :: rest, inquiry => follow room apply rest inquiry

/-- The variables among the tokens but for the hidden one: each once, where it first occurs. -/
def mentioned (hidden : Option String) (tokens : List Token) : List String :=
  ((tokens.filter fun token => token.kind = .variableName ∧ some token.text ≠ hidden).map
    Token.text).eraseDups

variable [Resolver ρ]

/-- Asks for a value.  With the answer the name is bound. -/
def askValue (name : String) (inquiry : Inquiry ρ) : Course ρ :=
  match Resolver.value inquiry.resolver name with
  | (.ok _, resolver) =>
    ⟨[.value name], some ⟨fun other => other = name || inquiry.isBound other, resolver⟩⟩
  | (.error _, _) => ⟨[.value name], none⟩

/-- Asks for values, one after the other. -/
def askValues : List String → Inquiry ρ → Course ρ
  | [], inquiry => inquiry.proceed
  | name :: rest, inquiry => (inquiry.askValue name).andThen (askValues rest)

/-- Asks for the variables among the tokens that are not bound. -/
def askVariables (hidden : Option String) (tokens : List Token) (inquiry : Inquiry ρ) :
    Course ρ :=
  inquiry.askValues ((mentioned hidden tokens).filter fun name => !inquiry.isBound name)

/-- Applies a function.  One that is not built in is asked for, and its body is read with the
placeholder among the known names and evaluated with the placeholder hidden. -/
def applyFunction (names : KnownNames)
    (evaluate : Option String → TokenSequence → Inquiry ρ → Course ρ) (name : String)
    (inquiry : Inquiry ρ) : Course ρ :=
  match BuiltIn.ofName? name with
  | some _ => inquiry.proceed
  | none =>
    match Resolver.function inquiry.resolver name with
    | (.error _, _) => ⟨[.function name], none⟩
    | (.ok function, resolver) =>
      Course.andThen ⟨[.function name], some ⟨inquiry.isBound, resolver⟩⟩ fun inquiry =>
        if isIdentifier function.placeholder then
          match tokenize (names.adding function.placeholder) function.body with
          | .ok tokens => evaluate (some function.placeholder) tokens inquiry
          | .error _ => .stopped
        else .stopped

/-- The course of a token sequence where `room` more factors may be opened. -/
def ofTokens (names : KnownNames) (room : Nat) (hidden : Option String) (tokens : TokenSequence)
    (inquiry : Inquiry ρ) : Course ρ :=
  (inquiry.askVariables hidden tokens.body).andThen fun inquiry =>
    (inquiry.follow room (fun opened name inquiry =>
        if opened < room then
          inquiry.applyFunction names (ofTokens names (room - (opened + 1))) name
        else .stopped)
      (Program.ofTokens tokens).steps).andThen fun inquiry =>
        match (Program.ofTokens tokens).offending with
        | some _ => .stopped
        | none => inquiry.proceed
  termination_by room

/-- The course of an expression. -/
def ofText (names : KnownNames) (text : String) (inquiry : Inquiry ρ) : Course ρ :=
  match tokenize names text with
  | .ok tokens => inquiry.ofTokens names nestingLimit none tokens
  | .error _ => .stopped

/-! ## Variables before the first step -/

theorem eraseDups_filter (p : String → Bool) (names : List String) :
    (names.filter p).eraseDups = names.eraseDups.filter p := by
  -- `eraseDups` goes on with a filtered list, so the induction is on the length.
  induction hlength : names.length using Nat.strongRecOn generalizing names with
  | ind length ih =>
      cases names with
      | nil => rfl
      | cons name rest =>
          have hshorter := List.length_filter_le (fun other => !other == name) rest
          have hrest := ih _ (by rw [← hlength, List.length_cons]; omega)
            (rest.filter fun other => !other == name) rfl
          rw [List.eraseDups_cons]
          by_cases hname : p name
          · rw [List.filter_cons_of_pos hname, List.filter_cons_of_pos hname, List.eraseDups_cons,
              ← hrest, List.filter_filter, List.filter_filter]
            simp only [Bool.and_comm]
          · rw [List.filter_cons_of_neg hname, List.filter_cons_of_neg hname, ← hrest,
              List.filter_filter]
            refine congrArg List.eraseDups (List.filter_congr fun other _ => ?_)
            by_cases hother : other = name
            · simp [hother, hname]
            · simp [hother]

theorem mentioned_cons_of_ne {hidden : Option String} {token : Token}
    (h : token.kind = .variableName → hidden = some token.text) (rest : List Token) :
    mentioned hidden (token :: rest) = mentioned hidden rest := by
  rw [mentioned, List.filter_cons_of_neg, mentioned]
  simpa using fun hkind => (h hkind).symm

theorem mentioned_cons {hidden : Option String} {token : Token}
    (hkind : token.kind = .variableName) (hhidden : hidden ≠ some token.text) (rest : List Token) :
    mentioned hidden (token :: rest)
      = token.text :: (mentioned hidden rest).filter fun other => !other == token.text := by
  rw [mentioned, List.filter_cons_of_pos (by simpa [hkind] using hhidden.symm), List.map_cons,
    List.eraseDups_cons, eraseDups_filter, mentioned]

variable {hidden : Option String} {token : Token} {inquiry : Inquiry ρ}

/-- A token that is no variable, or is hidden, or is bound, is not asked for. -/
theorem askVariables_cons_of_settled (h : token.kind = .variableName → hidden ≠ some token.text →
      inquiry.isBound token.text) (rest : List Token) :
    inquiry.askVariables hidden (token :: rest) = inquiry.askVariables hidden rest := by
  -- A visible variable that is bound is mentioned, but not among those to ask for.
  by_cases hvisible : token.kind = .variableName ∧ hidden ≠ some token.text
  · have hbound := h hvisible.1 hvisible.2
    rw [askVariables, askVariables, mentioned_cons hvisible.1 hvisible.2,
      List.filter_cons_of_neg (by simpa using hbound), List.filter_filter]
    refine congrArg (askValues · inquiry) (List.filter_congr fun other _ => ?_)
    by_cases hother : other = token.text
    · simp [hother, hbound]
    · simp [hother]
  · have hskip : mentioned hidden (token :: rest) = mentioned hidden rest :=
      mentioned_cons_of_ne (fun hkind => not_ne_iff.1 fun hhidden => hvisible ⟨hkind, hhidden⟩) rest
    rw [askVariables, askVariables, hskip]

/-- An unbound variable is asked for, and the rest as if it had been bound all along. -/
theorem askVariables_cons_of_unbound (hkind : token.kind = .variableName)
    (hhidden : hidden ≠ some token.text) (hbound : inquiry.isBound token.text = false)
    (rest : List Token) :
    inquiry.askVariables hidden (token :: rest)
      = (inquiry.askValue token.text).andThen (askVariables hidden rest) := by
  rw [askVariables, mentioned_cons hkind hhidden, List.filter_cons_of_pos (by simpa using hbound),
    List.filter_filter, askValues, askValue]
  rcases Resolver.value inquiry.resolver token.text with ⟨reason | value, resolver⟩
  · rfl
  · -- The name is left out below: here as a later mention, there as a bound name.
    have hlater : ((mentioned hidden rest).filter fun other =>
          !inquiry.isBound other && !other == token.text)
        = (mentioned hidden rest).filter fun other =>
          !(other = token.text || inquiry.isBound other) := by
      refine List.filter_congr fun other _ => ?_
      by_cases hother : other = token.text <;> simp [hother]
    rw [hlater]
    rfl

end Inquiry

/-! ## Evaluations and their courses -/

/-- What decides about requests in a state. -/
def EvalState.inquiry {ρ : Type} (state : EvalState ρ) : Inquiry ρ :=
  ⟨state.environment.isBound, state.resolver⟩

/-- An evaluation that started in the state has made the requests of the course, and has stopped
where the course stops.  The known names are the same, and what was bound is bound. -/
structure Takes {ρ α : Type} (course : Course ρ) (state : EvalState ρ)
    (outcome : Except EvalError α × EvalState ρ) : Prop where
  asked : outcome.2.asked = state.asked ++ course.requests
  reached : course.reached = outcome.1.toOption.map fun _ => outcome.2.inquiry
  names : outcome.2.environment.knownNames = state.environment.knownNames
  bound : ∀ name, state.environment.isBound name → outcome.2.environment.isBound name

namespace Takes

open Evaluation

variable {ρ α β : Type} {state : EvalState ρ}

theorem pure (value : α) :
    Takes state.inquiry.proceed state ((pure value : Evaluation ρ α) state) where
  asked := (List.append_nil _).symm
  reached := rfl
  names := rfl
  bound := fun _ h => h

theorem throw (error : EvalError) :
    Takes .stopped state ((throw error : Evaluation ρ α) state) where
  asked := (List.append_nil _).symm
  reached := rfl
  names := rfl
  bound := fun _ h => h

/-- The courses of two evaluations, one after the other. -/
theorem bind {first : Evaluation ρ α} {next : α → Evaluation ρ β} {course : Course ρ}
    {after : Inquiry ρ → Course ρ} (hfirst : Takes course state (first state))
    (hnext : ∀ value state', first state = (.ok value, state') →
      state'.environment.knownNames = state.environment.knownNames →
      (∀ name, state.environment.isBound name → state'.environment.isBound name) →
      Takes (after state'.inquiry) state' (next value state')) :
    Takes (course.andThen after) state ((first >>= next) state) := by
  rw [bind_apply]
  rcases houtcome : first state with ⟨error | value, state'⟩
  · rw [houtcome] at hfirst
    have hreached : course.reached = none := hfirst.reached
    rw [Course.andThen, hreached]
    exact ⟨hfirst.asked, hreached, hfirst.names, hfirst.bound⟩
  · rw [houtcome] at hfirst
    have hthen := hnext value state' houtcome hfirst.names hfirst.bound
    have hreached : course.reached = some state'.inquiry := hfirst.reached
    rw [Course.andThen, hreached]
    exact {
      asked := by rw [hthen.asked, hfirst.asked, List.append_assoc]
      reached := hthen.reached
      names := hthen.names.trans hfirst.names
      bound := fun name h => hthen.bound name (hfirst.bound name h) }

theorem discard {computation : Evaluation ρ α} {course : Course ρ}
    (h : Takes course state (computation state)) :
    Takes course state (Functor.discard computation state) := by
  rw [discard_apply]
  rcases houtcome : computation state with ⟨error | value, state'⟩
  · rw [houtcome] at h
    exact ⟨h.asked, h.reached, h.names, h.bound⟩
  · rw [houtcome] at h
    exact ⟨h.asked, h.reached, h.names, h.bound⟩

variable [Resolver ρ]

theorem resolve_of_isBound {name : String} (h : state.environment.isBound name) :
    Takes state.inquiry.proceed state (resolve name state) := by
  obtain ⟨value, hvalue⟩ := Option.isSome_iff_exists.1 h
  rw [resolve_of_value? hvalue]
  exact pure value

theorem resolve_of_unbound {name : String} (hknown : state.environment.isKnown name)
    (hunbound : state.environment.isBound name = false) :
    Takes (state.inquiry.askValue name) state (resolve name state) := by
  have hvalue : state.environment.value? name = none :=
    Option.isNone_iff_eq_none.1 (Option.isSome_eq_false_iff.1 hunbound)
  have hresolver : state.inquiry.resolver = state.resolver := rfl
  rw [resolve_of_value?_eq_none hknown hvalue, Inquiry.askValue, hresolver]
  rcases Resolver.value state.resolver name with ⟨reason | value, resolver⟩
  · exact ⟨rfl, rfl, rfl, fun _ h => h⟩
  · refine ⟨rfl, ?_, ?_, ?_⟩
    · have hbound : (state.environment.set name (some value)).isBound
          = fun other => decide (other = name) || state.environment.isBound other :=
        funext fun other => Environment.isBound_set ..
      show some _ = some (Inquiry.mk _ _)
      rw [hbound]
      rfl
    · exact Environment.knownNames_eq_of_names_eq (Environment.names_set hknown _)
    · intro other hother
      rw [Environment.isBound_set, hother, Bool.or_true]

/-- A variable of the scope is not asked for, nor is a bound one. -/
theorem lookUp {scope : Scope} {name : String}
    (h : scope.value? name = none → state.environment.isBound name) :
    Takes state.inquiry.proceed state (scope.lookUp resolve name state) := by
  rw [Scope.lookUp]
  cases hvalue : scope.value? name with
  | some value => exact pure value
  | none => exact resolve_of_isBound (h hvalue)

/-- The first of the variables is asked for if it is unbound, before the others. -/
theorem exists_lookUp {scope : Scope} {token : Token} (hkind : token.kind = .variableName)
    (hknown : scope.value? token.text = none → state.environment.isKnown token.text) :
    ∃ course : Course ρ, Takes course state (scope.lookUp resolve token.text state) ∧
      ∀ rest, state.inquiry.askVariables (scope.map Binding.placeholder) (token :: rest)
        = course.andThen (Inquiry.askVariables (scope.map Binding.placeholder) rest) := by
  by_cases hsettled : scope.value? token.text = none → state.environment.isBound token.text
  · exact ⟨_, lookUp hsettled, Inquiry.askVariables_cons_of_settled fun _ hhidden =>
      hsettled (Scope.value?_eq_none_iff.2 hhidden)⟩
  · -- The scope does not know the variable, and the environment has no value for it.
    obtain ⟨hvalue, hbound⟩ := Classical.not_imp.1 hsettled
    have hunbound := Bool.eq_false_iff.2 hbound
    refine ⟨state.inquiry.askValue token.text, ?_,
      Inquiry.askVariables_cons_of_unbound hkind (Scope.value?_eq_none_iff.1 hvalue) hunbound⟩
    rw [Scope.lookUp, hvalue]
    exact resolve_of_unbound (hknown hvalue) hunbound

/-- Every variable among the tokens that the scope does not know is a known name. -/
def KnownVariables (scope : Scope) (tokens : List Token) (names : KnownNames) : Prop :=
  ∀ token ∈ tokens, token.kind = .variableName → scope.value? token.text = none →
    names.isKnown token.text

theorem knownVariables_of_tokenize {names : KnownNames} {text placeholder : String}
    {argument : Float} {tokens : TokenSequence}
    (h : tokenize (names.adding placeholder) text = .ok tokens) :
    KnownVariables (some ⟨placeholder, argument⟩) tokens.body names := by
  intro token htoken hkind hvalue
  have hknown := knownIn_of_tokenize h token htoken hkind
  have hne : token.text ≠ placeholder := fun hname => by simp [Scope.value?, hname] at hvalue
  simpa [KnownNames.adding, hne] using hknown

/-- Before the first step the unbound variables are asked for. -/
theorem bindVariables {scope : Scope} {tokens : List Token}
    (hknown : KnownVariables scope tokens state.environment.knownNames) :
    Takes (state.inquiry.askVariables (scope.map Binding.placeholder) tokens) state
      (scope.bindVariables resolve tokens state) := by
  induction tokens generalizing state with
  | nil => exact pure ()
  | cons token rest ih =>
      have hrest : KnownVariables scope rest state.environment.knownNames :=
        fun token' htoken' => hknown token' (List.mem_cons_of_mem _ htoken')
      by_cases hkind : token.kind = .variableName
      · obtain ⟨course, hfirst, hcourse⟩ :=
          exists_lookUp hkind (hknown token List.mem_cons_self hkind)
        rw [Scope.bindVariables_cons_of_variable _ hkind, hcourse]
        exact hfirst.discard.bind fun _ _ _ hnames _ => ih (hnames ▸ hrest)
      · rw [Scope.bindVariables_cons_of_ne _ hkind,
          Inquiry.askVariables_cons_of_settled (fun h => absurd h hkind)]
        exact ih hrest

/-- After that they are bound. -/
theorem isBound_of_bindVariables {scope : Scope} {tokens : List Token} {state' : EvalState ρ}
    (hknown : KnownVariables scope tokens state.environment.knownNames)
    (h : scope.bindVariables resolve tokens state = (.ok (), state')) :
    ∀ token ∈ tokens, token.kind = .variableName → scope.value? token.text = none →
      state'.environment.isBound token.text := by
  induction tokens generalizing state with
  | nil => nofun
  | cons token rest ih =>
      have hrest : KnownVariables scope rest state.environment.knownNames :=
        fun token' htoken' => hknown token' (List.mem_cons_of_mem _ htoken')
      intro token' htoken' hkind' hvalue'
      by_cases hkind : token.kind = .variableName
      · obtain ⟨course, hfirst, -⟩ :=
          exists_lookUp hkind (hknown token List.mem_cons_self hkind)
        rw [Scope.bindVariables_cons_of_variable _ hkind, bind_apply, discard_apply] at h
        rcases hlook : scope.lookUp resolve token.text state with ⟨error | value, reached⟩
        · rw [hlook] at h
          cases h
        · rw [hlook] at h hfirst
          simp only at h
          have hafter : KnownVariables scope rest reached.environment.knownNames :=
            hfirst.names ▸ hrest
          rcases List.mem_cons.1 htoken' with rfl | htoken'
          · -- The first variable has been looked up, and the others leave it bound.
            rw [Scope.lookUp, hvalue'] at hlook
            have hbound := value?_of_resolve_eq_ok hlook
            have hkept := (bindVariables hafter).bound token'.text
            rw [h] at hkept
            exact hkept (Option.isSome_iff_exists.2 ⟨value, hbound⟩)
          · exact ih hafter h token' htoken' hkind' hvalue'
      · rw [Scope.bindVariables_cons_of_ne _ hkind] at h
        rcases List.mem_cons.1 htoken' with rfl | htoken'
        · exact absurd hkind' hkind
        · exact ih hrest h token' htoken' hkind' hvalue'

/-- The steps of a program whose variables are bound: only applications make requests. -/
theorem follow {scope : Scope} {room : Nat} {names : KnownNames}
    {apply : Nat → String → Float → Evaluation ρ Float}
    {course : Nat → String → Inquiry ρ → Course ρ}
    (happly : ∀ opened name argument state, state.environment.knownNames = names →
      Takes (course opened name state.inquiry) state (apply opened name argument state))
    {steps : List Step} {stack : List Float} (hnames : state.environment.knownNames = names)
    (hfits : Fits stack.length steps)
    (hbound : ∀ name, .load name ∈ steps → scope.value? name = none →
      state.environment.isBound name) :
    Takes (state.inquiry.follow room course steps) state
      (steps.foldlM (scope.takeStep resolve room apply) stack state) := by
  -- What is bound stays bound, so the loads that are still to come make no requests either.
  induction steps generalizing stack state with
  | nil => exact pure stack
  | cons step rest ih =>
      obtain ⟨hoperands, hrest⟩ := hfits
      have hlater : ∀ name, .load name ∈ rest → scope.value? name = none →
          state.environment.isBound name :=
        fun name hname => hbound name (List.mem_cons_of_mem _ hname)
      rw [List.foldlM_cons]
      cases step with
      | enter opened =>
          have hstep : scope.takeStep resolve room apply stack (.enter opened)
              = if opened < room then Pure.pure stack
                else MonadExcept.throw (.nestingLimit nestingLimit) := rfl
          rw [hstep, Inquiry.follow]
          by_cases hroom : opened < room
          · rw [if_pos hroom, if_pos hroom]
            exact ih hnames hrest hlater
          · rw [if_neg hroom, if_neg hroom]
            exact throw _
      | literal value => exact ih hnames hrest hlater
      | load name =>
          have hlook := lookUp (hbound name List.mem_cons_self)
          simp only [Scope.takeStep, bind_assoc, pure_bind]
          exact hlook.bind fun value state' _ hnames' hbound' =>
            ih (hnames'.trans hnames) hrest fun other hother hvalue =>
              hbound' other (hlater other hother hvalue)
      | negate =>
          cases stack with
          | nil => cases hoperands
          | cons value stack => exact ih hnames hrest hlater
      | combine operator =>
          rcases stack with _ | ⟨right, _ | ⟨left, stack⟩⟩
          · cases hoperands
          · exact absurd hoperands (Nat.not_succ_le_self 1)
          · exact ih hnames hrest hlater
      | apply function opened =>
          cases stack with
          | nil => cases hoperands
          | cons argument stack =>
              have happlied := happly opened function argument state hnames
              simp only [Scope.takeStep, takeStep, bind_assoc, pure_bind]
              exact happlied.bind fun value state' _ hnames' hbound' =>
                ih (hnames'.trans hnames) hrest fun other hother hvalue =>
                  hbound' other (hlater other hother hvalue)

/-- The application of a function. -/
theorem applyFunction {names : KnownNames} {evaluate : Scope → TokenSequence → Evaluation ρ Float}
    {course : Option String → TokenSequence → Inquiry ρ → Course ρ}
    (hevaluate : ∀ scope tokens state, state.environment.knownNames = names →
      KnownVariables scope tokens.body names →
      Takes (course (scope.map Binding.placeholder) tokens state.inquiry) state
        (evaluate scope tokens state))
    (name : String) (argument : Float) (hnames : state.environment.knownNames = names) :
    Takes (state.inquiry.applyFunction names course name) state
      (Scope.applyFunction evaluate name argument state) := by
  rw [Scope.applyFunction, Inquiry.applyFunction]
  cases BuiltIn.ofName? name with
  | some function => exact pure _
  | none =>
      simp only [EvalState.inquiry]
      rcases hanswer : Resolver.function state.resolver name with ⟨reason | function, resolver⟩
      · rw [bind_apply, askFunction_of_error hanswer]
        exact ⟨rfl, rfl, rfl, fun _ h => h⟩
      · have hask : Takes ⟨[.function name], some ⟨state.environment.isBound, resolver⟩⟩ state
            (askFunction name state) := by
          rw [askFunction_of_ok hanswer]
          exact ⟨rfl, rfl, rfl, fun _ h => h⟩
        refine hask.bind fun function' state' houtcome hnames' _ => ?_
        -- The function that the evaluation goes on with is the one that was answered.
        obtain rfl : function = function' := by
          rw [askFunction_of_ok hanswer] at houtcome
          exact Except.ok.inj (Prod.mk.inj houtcome).1
        by_cases hidentifier : isIdentifier function.placeholder
        · rw [if_pos hidentifier, if_pos hidentifier, bind_apply, readText_apply, hnames', hnames]
          cases hlexed : tokenize (names.adding function.placeholder) function.body with
          | error error => exact throw _
          | ok tokens =>
              exact hevaluate (some ⟨function.placeholder, argument⟩) tokens state'
                (hnames'.trans hnames) (knownVariables_of_tokenize hlexed)
        · rw [if_neg hidentifier, if_neg hidentifier]
          exact throw _

/-- The evaluation of a token sequence in a scope. -/
theorem evaluateTokens {names : KnownNames} (room : Nat) (scope : Scope) (tokens : TokenSequence)
    (state : EvalState ρ) (hnames : state.environment.knownNames = names)
    (hknown : KnownVariables scope tokens.body names) :
    Takes (state.inquiry.ofTokens names room (scope.map Binding.placeholder) tokens) state
      (scope.evaluateTokens resolve room tokens state) := by
  induction room using Nat.strongRecOn generalizing scope tokens state with
  | ind room ih =>
      rw [Scope.evaluateTokens, Inquiry.ofTokens]
      refine (bindVariables (hnames.symm ▸ hknown)).bind fun _ bound houtcome hnamesBound _ => ?_
      -- The names that are loaded are variables among the tokens, so they are bound by now.
      have hloads : ∀ name, .load name ∈ (Program.ofTokens tokens).steps →
          scope.value? name = none → bound.environment.isBound name := by
        intro name hload hvalue
        obtain ⟨token, htoken, hkind, rfl⟩ := Program.exists_of_load_mem_steps hload
        exact isBound_of_bindVariables (hnames.symm ▸ hknown) houtcome token htoken hkind hvalue
      have happly (opened : Nat) (name : String) (argument : Float) (state : EvalState ρ)
          (hnames : state.environment.knownNames = names) :
          Takes (if opened < room then state.inquiry.applyFunction names
                (Inquiry.ofTokens names (room - (opened + 1))) name else .stopped)
            state ((if opened < room then Scope.applyFunction
                (Scope.evaluateTokens resolve (room - (opened + 1))) name argument
              else MonadExcept.throw (.nestingLimit nestingLimit) : Evaluation ρ Float) state) := by
        by_cases hroom : opened < room
        · rw [if_pos hroom, if_pos hroom]
          exact applyFunction (fun scope tokens state hnames hknown =>
            ih _ (by omega) scope tokens state hnames hknown) name argument hnames
        · rw [if_neg hroom, if_neg hroom]
          exact throw _
      have hfits : Fits ([] : List Float).length (Program.ofTokens tokens).steps :=
        Program.fits_ofTokens tokens
      refine (follow happly (hnamesBound.trans hnames) hfits hloads).bind
        fun stack reached _ _ _ => ?_
      cases (Program.ofTokens tokens).offending with
      | some token => exact throw _
      | none => exact pure _

/-- The evaluation of an expression. -/
theorem evaluateText (text : String) (state : EvalState ρ) :
    Takes (state.inquiry.ofText state.environment.knownNames text) state
      (Evaluation.evaluateText text state) := by
  rw [Scope.evaluateText_eq, Scope.evaluateText, Inquiry.ofText, bind_apply, readText_apply, id]
  cases hlexed : tokenize state.environment.knownNames text with
  | error error => exact throw _
  | ok tokens =>
      exact evaluateTokens nestingLimit none tokens state rfl
        fun token htoken hkind _ => knownIn_of_tokenize hlexed token htoken hkind

end Takes

/-- The requests of an evaluation are those of its course.  The applications that the course follows
are those of the tree, if there is one, each after those in its argument. -/
theorem Evaluator.asked_evaluate {ρ : Type} [Resolver ρ] (evaluator : Evaluator ρ) :
    evaluator.evaluate.asked
      = (Inquiry.ofText evaluator.environment.knownNames evaluator.expression
          ⟨evaluator.environment.isBound, evaluator.resolver⟩).requests ∧
    ∀ names text tokens tree, Reckoner.tokenize names text = .ok tokens →
      Sentence tokens.body tree →
      (Program.ofTokens tokens).steps.filterMap Step.application? = Sentence.applications tree := by
  refine ⟨?_, fun names text tokens tree hlexed hsentence => ?_⟩
  · exact (Takes.evaluateText evaluator.expression
      { environment := evaluator.environment, resolver := evaluator.resolver }).asked
  · exact Program.applications_of_sentence hsentence (readable_of_tokenize hlexed)

/-- The variable comes first.  The body of `g` asks for nothing more, that of `f` for `y`. -/
theorem Evaluator.asked_nested_applications :
    (evaluate { expression := "f(g(x))", environment := .resetConventional .initial,
                resolver := ({ values := [.ok 1, .ok 2],
                               functions := [.ok ⟨"t", "t*x"⟩, .ok ⟨"t", "t+y"⟩] } : Script) }).asked
      = [.value "x", .function "g", .function "f", .value "y"] ∧
    ∃ tokens, Reckoner.tokenize (Environment.resetConventional .initial).knownNames "f(g(x))"
        = .ok tokens ∧
      (Program.ofTokens tokens).steps.filterMap Step.application? = ["g", "f"] := by
  let evaluator : Evaluator Script :=
    { expression := "f(g(x))", environment := .resetConventional .initial,
      resolver := { values := [.ok 1, .ok 2],
                    functions := [.ok ⟨"t", "t*x"⟩, .ok ⟨"t", "t+y"⟩] } }
  obtain ⟨hasked, happlications⟩ := Evaluator.asked_evaluate evaluator
  let tokens : TokenSequence :=
    { body := [⟨.functionName, "f", 0⟩, ⟨.leftParen, "(", 1⟩, ⟨.functionName, "g", 2⟩,
        ⟨.leftParen, "(", 3⟩, ⟨.variableName, "x", 4⟩, ⟨.rightParen, ")", 5⟩,
        ⟨.rightParen, ")", 6⟩]
      endPosition := 7
      body_kind := by decide }
  have hlexed : Reckoner.tokenize evaluator.environment.knownNames "f(g(x))" = .ok tokens := by
    decide +kernel
  have hx : Derives .factor [⟨.variableName, "x", 4⟩] _ := .variableName rfl
  have hinner : Derives .factor
      (⟨.leftParen, "(", 3⟩ :: ([⟨.variableName, "x", 4⟩] ++ [⟨.rightParen, ")", 5⟩])) _ :=
    .parenthesis rfl (.sumOfProduct (.productOfFactor hx)) rfl
  have hg : Derives .factor (⟨.functionName, "g", 2⟩ :: _) _ := .application rfl hinner
  have houter : Derives .factor (⟨.leftParen, "(", 1⟩ :: (_ ++ [⟨.rightParen, ")", 6⟩])) _ :=
    .parenthesis rfl (.sumOfProduct (.productOfFactor hg)) rfl
  have hf : Derives .factor (⟨.functionName, "f", 0⟩ :: _) _ := .application rfl houter
  refine ⟨hasked.trans (by decide +kernel), tokens, hlexed, ?_⟩
  exact happlications _ _ tokens _ hlexed (.sum (.sumOfProduct (.productOfFactor hf)))

end Reckoner
