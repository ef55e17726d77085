/-
  Reckoner.Proofs.Evaluation.Preparation

  What is certain whenever a name is resolved (`Evaluator.evaluate_prepared`).

  Expressions and bodies are read with the names that are known at the time.  By the time a
  variable is resolved other bodies may have been evaluated, but they leave the known names as they
  are; and the placeholder, which was known for the reading only, is gone from the tokens.  So every
  name that is resolved is known.  Where a step loads a name it is even bound, because all variables
  of the token sequence have been given their values before the first step, and what is bound
  stays bound.  The numbers among the tokens can be read, those of the text as well as those that
  are written for an argument.
-/
import Reckoner.Proofs.Evaluation.Frame
import Reckoner.Proofs.Evaluation.Moments
import Reckoner.Proofs.Evaluation.Requests

namespace Reckoner

open Evaluation

variable {ρ : Type}

/-! ## Tokens after a substitution -/

theorem Token.Readable.substitute {token : Token} (h : token.Readable) (name : String)
    (value : Float) : (token.substitute name value).Readable := by
  rw [Token.substitute]
  split
  · exact fun _ => ⟨value, Numeral.read_ofFloat value⟩
  · exact h

/-- Where the placeholder has been substituted, the other names suffice. -/
theorem Token.KnownIn.substitute {names : KnownNames} {placeholder : String} {token : Token}
    (h : token.KnownIn (names.adding placeholder)) (value : Float) :
    (token.substitute placeholder value).KnownIn names := by
  rw [Token.substitute]
  split
  · -- What has been substituted is a number.
    intro hkind
    cases hkind
  · next hother =>
      intro hkind
      have hne : token.text ≠ placeholder := fun hname => hother ⟨hkind, hname⟩
      simpa [KnownNames.adding, hne] using h hkind

/-! ## Token sequences that are evaluated -/

/-- The variables among the tokens are known where the evaluation begins, and the numbers can be
read. -/
structure Start.Grounded (start : Start ρ) : Prop where
  known : ∀ token ∈ start.tokens.body, token.KnownIn start.state.environment.knownNames
  readable : ∀ token ∈ start.tokens.body, token.Readable

variable [Resolver ρ]

/-- So are those of a body with the argument in place of the placeholder. -/
theorem grounded_of_bodyOf {name : String} {argument : Float} {state body : EvalState ρ}
    {tokens : TokenSequence} (h : bodyOf name argument state = some (tokens, body)) (room : Nat) :
    Start.Grounded ⟨room, tokens, body⟩ := by
  unfold bodyOf at h
  split at h
  · next function asked _ =>
      split at h
      · rw [readText_apply] at h
        cases hlexed : tokenize (asked.environment.knownNames.adding function.placeholder)
            function.body with
        | error error =>
            rw [hlexed] at h
            cases h
        | ok read =>
            rw [hlexed] at h
            obtain ⟨rfl, rfl⟩ := Prod.mk.inj (Option.some.inj h)
            constructor
            · exact List.forall_mem_map.2 fun token htoken =>
                (knownIn_of_tokenize hlexed token htoken).substitute argument
            · exact List.forall_mem_map.2 fun token htoken =>
                (readable_of_tokenize hlexed token htoken).substitute _ argument
      · cases h
  · cases h

theorem Start.grounded_of_mem_bodies {start inner : Start ρ} (h : inner ∈ start.bodies) :
    inner.Grounded := by
  obtain ⟨⟨step, stack, state⟩, -, hbody⟩ := exists_of_mem_bodies h
  unfold Taken.body? at hbody
  split at hbody
  · split at hbody
    · obtain ⟨⟨tokens, body⟩, hbodyOf, rfl⟩ := Option.map_eq_some_iff.1 hbody
      exact grounded_of_bodyOf hbodyOf _
    · cases hbody
  · cases hbody

theorem Evaluator.grounded_of_mem_begun {evaluator : Evaluator ρ} {start : Start ρ}
    (h : start ∈ evaluator.begun) : start.Grounded := by
  rw [begun, begunIn] at h
  cases hlexed : Reckoner.tokenize evaluator.environment.knownNames evaluator.expression with
  | error error =>
      rw [hlexed] at h
      cases h
  | ok tokens =>
      rw [hlexed] at h
      rcases Start.mem_begun_cases h with rfl | ⟨outer, houter⟩
      · exact ⟨knownIn_of_tokenize hlexed, readable_of_tokenize hlexed⟩
      · exact Start.grounded_of_mem_bodies houter

/-! ## From the beginning to a moment -/

section Stable

variable {relation : EvalState ρ → EvalState ρ → Prop}

/-- A stable relation leads from the beginning to every moment before the first step. -/
theorem Evaluation.Stable.preparations (h : Stable relation) {tokens : List Token}
    {state : EvalState ρ} {moment : Moment ρ} (hmoment : moment ∈ preparations tokens state) :
    relation state moment.state := by
  induction tokens generalizing state with
  | nil => cases hmoment
  | cons token rest ih =>
      rcases mem_preparations_cons hmoment with
        ⟨-, rfl⟩ | ⟨middle, hrest, rfl | ⟨value, hvalue⟩⟩
      · exact h.refl state
      · exact ih hrest
      · have hfirst := h.resolve token.text state
        rw [hvalue] at hfirst
        exact h.trans _ _ _ hfirst (ih hrest)

/-- It leads from the first step to every other. -/
theorem Evaluation.Stable.stepsTaken (h : Stable relation) {room : Nat} {steps : List Step}
    {stack : List Float} {state : EvalState ρ} {taken : Taken ρ}
    (htaken : taken ∈ stepsTaken room steps stack state) : relation state taken.state := by
  have happly (opened : Nat) (name : String) (argument : Float) :
      Leads relation relation (applyWithin room opened name argument : Evaluation ρ Float) := by
    rw [applyWithin]
    split
    · exact h.lasting.closed.applyFunction (fun tokens =>
        h.lasting.closed.evaluateTokens _ tokens) name argument
    · exact h.lasting.closed.throw _ (by simp)
  induction steps generalizing stack state with
  | nil => cases htaken
  | cons step rest ih =>
      rcases mem_stepsTaken_cons htaken with rfl | ⟨stack', middle, hstep, hrest⟩
      · exact h.refl state
      · have hfirst := h.lasting.closed.takeStep happly room stack step state
        rw [hstep] at hfirst
        exact h.trans _ _ _ hfirst (ih hrest)

/-- When the first step is taken all variables have been given their values, and the relation leads
there and on to every step. -/
theorem Evaluation.Stable.taken (h : Stable relation) {start : Start ρ} {taken : Taken ρ}
    (htaken : taken ∈ start.taken) :
    ∃ bound, bindVariables start.tokens.body start.state = (.ok (), bound) ∧
      relation start.state bound ∧ relation bound taken.state := by
  obtain ⟨bound, hbound, hmem⟩ := Start.exists_of_mem_taken htaken
  have hfirst := h.lasting.closed.bindVariables start.tokens.body start.state
  rw [hbound] at hfirst
  exact ⟨bound, hbound, hfirst, h.stepsTaken hmem⟩

/-- It leads from the beginning to every moment at which a name is resolved. -/
theorem Evaluation.Stable.resolutions (h : Stable relation) {start : Start ρ} {moment : Moment ρ}
    (hmoment : moment ∈ start.resolutions) : relation start.state moment.state := by
  rcases List.mem_append.1 hmoment with hprepared | hloaded
  · exact h.preparations hprepared
  · obtain ⟨taken, htaken, hload⟩ := List.mem_filterMap.1 hloaded
    obtain ⟨bound, -, hfirst, hthen⟩ := h.taken htaken
    rw [← (Taken.eq_of_load? hload).2]
    exact h.trans _ _ _ hfirst hthen

end Stable

/-! ## What is certain at a moment -/

namespace Start.Grounded

variable {start : Start ρ}

/-- Every name that is resolved is known. -/
theorem isKnown (h : start.Grounded) {moment : Moment ρ} (hmoment : moment ∈ start.resolutions) :
    moment.state.environment.isKnown moment.name := by
  obtain ⟨token, htoken, hkind, hname⟩ := exists_of_mem_resolutions hmoment
  -- It was known at the beginning, and no name is forgotten.
  obtain ⟨requests, hextends⟩ := stable_extended.resolutions hmoment
  rw [Environment.isKnown_eq_of_names_eq hextends.names, ← hname]
  exact h.known token htoken hkind

/-- All variables are bound when a step is taken. -/
theorem isBound (h : start.Grounded) {taken : Taken ρ} (htaken : taken ∈ start.taken)
    {token : Token} (htoken : token ∈ start.tokens.body) (hkind : token.kind = .variableName) :
    taken.state.environment.isBound token.text := by
  obtain ⟨bound, hbound, -, requests, hextends⟩ := stable_extended.taken htaken
  -- To give the variables their values is to look them up in the scope that knows nothing.
  have hscope : Scope.bindVariables resolve none start.tokens.body start.state
      = (.ok (), bound) := hbound
  have hprepared : bound.environment.isBound token.text :=
    Takes.isBound_of_bindVariables (fun other hother hkind' _ => h.known other hother hkind')
      hscope token htoken hkind rfl
  obtain ⟨value, hvalue⟩ := Option.isSome_iff_exists.1 hprepared
  exact Option.isSome_iff_exists.2 ⟨value, hextends.bound _ _ hvalue⟩

/-- A name that is loaded is read from the environment. -/
theorem exists_value (h : start.Grounded) {moment : Moment ρ} (hmoment : moment ∈ start.loaded) :
    ∃ value, moment.state.environment.value? moment.name = some value ∧
      resolve moment.name moment.state = (.ok value, moment.state) := by
  obtain ⟨token, htoken, hkind, hname⟩ :=
    exists_of_mem_resolutions (List.mem_append_right start.prepared hmoment)
  obtain ⟨taken, htaken, hload⟩ := List.mem_filterMap.1 hmoment
  have hbound := h.isBound htaken htoken hkind
  rw [(Taken.eq_of_load? hload).2, hname] at hbound
  obtain ⟨value, hvalue⟩ := Option.isSome_iff_exists.1 hbound
  exact ⟨value, hvalue, resolve_of_value? hvalue⟩

end Start.Grounded

/-- Computations that do not end because a name is unknown. -/
theorem closedAt_ne_unknownIdentifier :
    ClosedAt fun {α} (computation : Evaluation ρ α) state =>
      ∀ name, (computation state).1 ≠ .error (.unknownIdentifier name) where
  pure := fun _ _ _ => nofun
  throw := fun error state hne name herror => hne name (Except.error.inj herror)
  bind := by
    intro α β first next state hfirst hnext name
    rw [bind_apply]
    rcases houtcome : first state with ⟨error | value, middle⟩
    · intro herror
      refine hfirst name ?_
      rw [houtcome]
      exact congrArg Except.error (Except.error.inj herror)
    · exact hnext value middle houtcome name
  askFunction := by
    intro name state name'
    rcases hanswer : Resolver.function state.resolver name with ⟨reason | function, resolver⟩
    · rw [askFunction_of_error hanswer]
      exact nofun
    · rw [askFunction_of_ok hanswer]
      exact nofun
  readText := by
    intro text extend state name
    rw [readText_apply]
    cases tokenize (extend state.environment.knownNames) text <;> exact nofun

theorem resolve_ne_unknownIdentifier {name : String} {state : EvalState ρ}
    (h : state.environment.isKnown name) (name' : String) :
    (resolve name state).1 ≠ .error (.unknownIdentifier name') := by
  rcases resolve_cases name state with ⟨value, -, hresolve⟩ | ⟨hunknown, -⟩ |
    ⟨reason | value, resolver, -, -, -, hresolve⟩
  · rw [hresolve]
    exact nofun
  · exact absurd h hunknown
  · rw [hresolve]
    exact nofun
  · rw [hresolve]
    exact nofun

/-- Computations that ask for no values but those of certain names. -/
theorem closedAt_asks (certain : String → Prop) :
    ClosedAt fun {α} (computation : Evaluation ρ α) state =>
      ∀ name, .value name ∈ (computation state).2.asked →
        .value name ∈ state.asked ∨ certain name where
  pure := fun _ _ _ => .inl
  throw := fun _ _ _ _ => .inl
  bind := by
    intro α β first next state hfirst hnext name hasked
    rw [bind_apply] at hasked
    rcases houtcome : first state with ⟨error | value, middle⟩
    · rw [houtcome] at hfirst hasked
      exact hfirst name hasked
    · rw [houtcome] at hfirst hasked
      rcases hnext value middle houtcome name hasked with hmiddle | hcertain
      · exact hfirst name hmiddle
      · exact .inr hcertain
  askFunction := by
    intro name state name' hasked
    rcases List.mem_append.1 (show _ ∈ state.asked ++ [.function name] from hasked) with h | h
    · exact .inl h
    · simp at h
  readText := by
    intro text extend state name hasked
    rw [readText_apply] at hasked
    cases hlexed : tokenize (extend state.environment.knownNames) text with
    | error error =>
        rw [hlexed] at hasked
        exact .inl hasked
    | ok tokens =>
        rw [hlexed] at hasked
        exact .inl hasked

/-- To resolve a name is to ask for its value or for nothing. -/
theorem value_mem_asked_resolve {name name' : String} {state : EvalState ρ}
    (h : .value name' ∈ (resolve name state).2.asked) :
    .value name' ∈ state.asked ∨ name' = name := by
  rcases resolve_cases name state with ⟨value, -, hresolve⟩ | ⟨-, hresolve⟩ |
    ⟨reason | value, resolver, -, -, -, hresolve⟩
  all_goals rw [hresolve] at h
  · exact .inl h
  · exact .inl h
  · simpa using h
  · simpa using h

/-- No evaluation ends because a name is unknown: in the expression and in every body that is
evaluated on the way, every name that is resolved is known at that moment.  All variables of the
tokens are bound when a step is taken, so that a name that a step loads is read from the
environment, and nothing is asked and nothing changes: all values that are asked for are asked for
before the first step.  Every number among the tokens can be read: where it is the first token of a
factor, it is the factor's value. -/
theorem Evaluator.evaluate_prepared (evaluator : Evaluator ρ) :
    (∀ name, evaluator.evaluate.result ≠ .error (.unknownIdentifier name)) ∧
    (∀ name, .value name ∈ evaluator.evaluate.asked →
      ∃ start ∈ evaluator.begun, ∃ moment ∈ start.prepared, moment.name = name) ∧
    ∀ start ∈ evaluator.begun,
      (∀ moment ∈ start.resolutions, moment.state.environment.isKnown moment.name) ∧
      (∀ taken ∈ start.taken, ∀ token ∈ start.tokens.body, token.kind = .variableName →
        taken.state.environment.isBound token.text) ∧
      (∀ moment ∈ start.loaded, ∃ value,
        moment.state.environment.value? moment.name = some value ∧
        Evaluation.resolve moment.name moment.state = (.ok value, moment.state)) ∧
      ∀ token ∈ start.tokens.body, token.kind = .number → ∃ value,
        Numeral.read token.text = .ok value ∧
        ∀ stop frames rest, Program.ofOperand stop frames (token :: rest)
          = .prepend
              (.enter (Frame.opened frames) :: .literal value :: (Frame.closeFactor frames).1)
              (.ofOperator stop (Frame.closeFactor frames).2 rest) := by
  have hgrounded {start : Start ρ} (hstart : start ∈ evaluator.begun) : start.Grounded :=
    grounded_of_mem_begun hstart
  refine ⟨?_, ?_, fun start hstart => ?_⟩
  · exact closedAt_ne_unknownIdentifier.evaluateText fun start hstart moment hmoment =>
      resolve_ne_unknownIdentifier ((hgrounded hstart).isKnown hmoment)
  · intro name hasked
    refine ((closedAt_asks fun name => ∃ start ∈ evaluator.begun, ∃ moment ∈ start.prepared,
      moment.name = name).evaluateText ?_ name hasked).resolve_left List.not_mem_nil
    intro start hstart moment hmoment name' hname'
    rcases List.mem_append.1 hmoment with hprepared | hloaded
    · exact (value_mem_asked_resolve hname').imp_right fun heq =>
        ⟨start, hstart, moment, hprepared, heq.symm⟩
    · -- What is loaded is bound, so nothing is asked for.
      obtain ⟨value, -, hresolve⟩ := (hgrounded hstart).exists_value hloaded
      rw [hresolve] at hname'
      exact .inl hname'
  · refine ⟨fun _ => (hgrounded hstart).isKnown,
      fun _ htaken _ => (hgrounded hstart).isBound htaken,
      fun _ => (hgrounded hstart).exists_value, fun token htoken hkind => ?_⟩
    obtain ⟨value, hvalue⟩ := (hgrounded hstart).readable token htoken hkind
    have hleaf : token.leaf? = some (.literal value) := by simp only [Token.leaf?, hkind, hvalue]
    exact ⟨value, hvalue, fun _ _ rest => Program.ofOperand_of_leaf? hleaf rest⟩

/-- In the body of the function the variable is loaded from the environment, and the argument is a
number that can be read. -/
theorem Evaluator.evaluate_prepared_in_body :
    ∃ start ∈ begun { expression := "f(x)", environment := .resetConventional .initial,
                      resolver := ({ «variables» := .ofList [("x", 1), ("y", 2)],
                                     functions := .ofList [("f", ⟨"t", "t+y"⟩)] } : Tables) },
      (∃ moment ∈ start.loaded, ∃ value, moment.name = "y" ∧
        Evaluation.resolve "y" moment.state = (.ok value, moment.state)) ∧
      ∃ token ∈ start.tokens.body, ∃ value, token.text = "1" ∧
        Numeral.read token.text = .ok value := by
  let evaluator : Evaluator Tables :=
    { expression := "f(x)", environment := .resetConventional .initial,
      resolver := { «variables» := .ofList [("x", 1), ("y", 2)],
                    functions := .ofList [("f", ⟨"t", "t+y"⟩)] } }
  have hbegun : (["y"], [⟨.number, "1", 0⟩, ⟨.plus, "+", 1⟩, ⟨.variableName, "y", 2⟩])
      ∈ evaluator.begun.map fun start => (start.loaded.map Moment.name, start.tokens.body) := by
    decide +kernel
  obtain ⟨start, hstart, hstartEq⟩ := List.mem_map.1 hbegun
  obtain ⟨hloaded, hbody⟩ := Prod.mk.inj hstartEq
  obtain ⟨-, -, hevaluations⟩ := evaluator.evaluate_prepared
  obtain ⟨-, -, hloads, hnumbers⟩ := hevaluations start hstart
  refine ⟨start, hstart, ?_, ?_⟩
  · obtain ⟨moment, hmoment, hname⟩ : ∃ moment ∈ start.loaded, moment.name = "y" :=
      List.mem_map.1 (hloaded ▸ List.mem_cons_self)
    obtain ⟨value, -, hresolve⟩ := hloads moment hmoment
    exact ⟨moment, hmoment, value, hname, hname ▸ hresolve⟩
  · have htoken : ⟨.number, "1", 0⟩ ∈ start.tokens.body := hbody ▸ List.mem_cons_self
    obtain ⟨value, hvalue, -⟩ := hnumbers _ htoken rfl
    exact ⟨_, htoken, value, rfl, hvalue⟩

end Reckoner
