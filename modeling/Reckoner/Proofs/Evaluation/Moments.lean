/-
  Reckoner.Proofs.Evaluation.Moments

  What happens in the course of an evaluation, and in which states.

  An evaluation of a token sequence gives the variables their values one after the other
  (`preparations`) and then takes steps (`stepsTaken`); where a step applies a function with a body,
  another evaluation begins (`Taken.body?`).  So all evaluations that begin on the way can be listed
  (`Start.begun`), and for each of them the moments at which a name is resolved
  (`Start.resolutions`).

  Computations may have a property in the states that they find and hand it on to what they are put
  together to (`ClosedAt`).  An evaluation has such a property if resolving a name has it at every
  one of these moments (`ClosedAt.evaluateText`): at other moments no name is resolved.
-/
import Reckoner.Evaluator
import Reckoner.Proofs.Evaluation.Faults

namespace Reckoner

open Evaluation

/-- The tokens are evaluated from the state on, where `room` more factors may be opened. -/
structure Start (ρ : Type) where
  room : Nat
  tokens : TokenSequence
  state : EvalState ρ

/-- A name that is resolved, and the state it is resolved in. -/
structure Moment (ρ : Type) where
  name : String
  state : EvalState ρ

/-- A step that is taken, with the stack and the state that it finds. -/
structure Taken (ρ : Type) where
  step : Step
  stack : List Float
  state : EvalState ρ

/-! ## What happens -/

section Moments

variable {ρ : Type}

/-- The name that a step loads. -/
def Taken.load? : Taken ρ → Option (Moment ρ)
  | ⟨.load name, _, state⟩ => some ⟨name, state⟩
  | _ => none

theorem Taken.eq_of_load? {taken : Taken ρ} {moment : Moment ρ} (h : taken.load? = some moment) :
    taken.step = .load moment.name ∧ taken.state = moment.state := by
  unfold load? at h
  split at h
  · obtain rfl := Option.some.inj h
    exact ⟨rfl, rfl⟩
  · cases h

variable [Resolver ρ]

/-- The moments at which the variables among the tokens are given their values. -/
def preparations : List Token → EvalState ρ → List (Moment ρ)
  | [], _ => []
  | token :: rest, state =>
    if token.kind = .variableName then
      ⟨token.text, state⟩ ::
        match resolve token.text state with
        | (.ok _, state) => preparations rest state
        | (.error _, _) => []
    else preparations rest state

/-- The steps that are taken, up to the first that fails. -/
def stepsTaken (room : Nat) : List Step → List Float → EvalState ρ → List (Taken ρ)
  | [], _, _ => []
  | step :: rest, stack, state =>
    ⟨step, stack, state⟩ ::
      match takeStep room (applyWithin room) stack step state with
      | (.ok stack, state) => stepsTaken room rest stack state
      | (.error _, _) => []

/-- What is evaluated where a function that is not built in is applied, unless it is refused or its
body cannot be read: the body with the argument in place of the placeholder. -/
def bodyOf (name : String) (argument : Float) (state : EvalState ρ) :
    Option (TokenSequence × EvalState ρ) :=
  match askFunction name state with
  | (.ok function, state) =>
    if isIdentifier function.placeholder then
      match readText function.body (·.adding function.placeholder) state with
      | (.ok tokens, state) => some (tokens.substitute function.placeholder argument, state)
      | (.error _, _) => none
    else none
  | (.error _, _) => none

/-- The evaluation of a body that begins with a step. -/
def Taken.body? (room : Nat) : Taken ρ → Option (Start ρ)
  | ⟨.apply name opened, argument :: _, state⟩ =>
    if opened < room ∧ BuiltIn.ofName? name = none then
      (bodyOf name argument state).map fun (tokens, state) => ⟨room - (opened + 1), tokens, state⟩
    else none
  | _ => none

namespace Start

/-- The moments at which the variables are given their values, before the first step. -/
def prepared (start : Start ρ) : List (Moment ρ) :=
  preparations start.tokens.body start.state

/-- The steps that are taken when all variables have their values. -/
def taken (start : Start ρ) : List (Taken ρ) :=
  match bindVariables start.tokens.body start.state with
  | (.ok _, bound) => stepsTaken start.room (Program.ofTokens start.tokens).steps [] bound
  | (.error _, _) => []

/-- The moments at which a step loads a name. -/
def loaded (start : Start ρ) : List (Moment ρ) :=
  start.taken.filterMap Taken.load?

/-- All moments at which a name is resolved, those in bodies apart. -/
def resolutions (start : Start ρ) : List (Moment ρ) :=
  start.prepared ++ start.loaded

/-- The evaluations of bodies that begin with one of the steps. -/
def bodies (start : Start ρ) : List (Start ρ) :=
  start.taken.filterMap (Taken.body? start.room)

end Start

/-- A body has less room than the evaluation it belongs to. -/
theorem Taken.room_lt_of_body? {room : Nat} {taken : Taken ρ} {inner : Start ρ}
    (h : taken.body? room = some inner) : inner.room < room := by
  unfold body? at h
  split at h
  · split at h
    · next hroom =>
        obtain ⟨_, -, rfl⟩ := Option.map_eq_some_iff.1 h
        exact Nat.sub_lt (Nat.lt_of_le_of_lt (Nat.zero_le _) hroom.1) (Nat.succ_pos _)
    · cases h
  · cases h

namespace Start

theorem exists_of_mem_bodies {start inner : Start ρ} (h : inner ∈ start.bodies) :
    ∃ taken ∈ start.taken, taken.body? start.room = some inner :=
  List.mem_filterMap.1 h

theorem room_lt_of_mem_bodies {start inner : Start ρ} (h : inner ∈ start.bodies) :
    inner.room < start.room := by
  obtain ⟨_, -, hbody⟩ := exists_of_mem_bodies h
  exact Taken.room_lt_of_body? hbody

/-- All evaluations that begin in the course of one, itself the first. -/
def begun (start : Start ρ) : List (Start ρ) :=
  start :: start.bodies.attach.flatMap fun ⟨inner, _⟩ => inner.begun
  termination_by start.room
  decreasing_by exact room_lt_of_mem_bodies ‹_›

theorem begun_eq (start : Start ρ) : start.begun = start :: start.bodies.flatMap begun := by
  rw [begun]
  simp only [List.flatMap_subtype, List.unattach_attach]

theorem mem_begun_self (start : Start ρ) : start ∈ start.begun := by
  rw [begun_eq]
  exact List.mem_cons_self

theorem mem_begun_of_mem_bodies {start body inner : Start ρ} (hbody : body ∈ start.bodies)
    (hinner : inner ∈ body.begun) : inner ∈ start.begun := by
  rw [begun_eq]
  exact List.mem_cons_of_mem _ (List.mem_flatMap.2 ⟨body, hbody, hinner⟩)

/-- What begins in the course of an evaluation is that evaluation or a body. -/
theorem mem_begun_cases {start inner : Start ρ} (h : inner ∈ start.begun) :
    inner = start ∨ ∃ outer : Start ρ, inner ∈ outer.bodies := by
  induction start using Start.begun.induct with
  | case1 start ih =>
      rw [begun_eq, List.mem_cons, List.mem_flatMap] at h
      rcases h with rfl | ⟨body, hbody, hinner⟩
      · exact .inl rfl
      · rcases ih body hbody hinner with rfl | houter
        · exact .inr ⟨start, hbody⟩
        · exact .inr houter

end Start

/-- All evaluations that begin in the course of the evaluation of a text. -/
def begunIn (text : String) (state : EvalState ρ) : List (Start ρ) :=
  match tokenize state.environment.knownNames text with
  | .ok tokens => Start.begun ⟨nestingLimit, tokens, state⟩
  | .error _ => []

/-- All evaluations that begin in the course of the evaluation of the expression. -/
def Evaluator.begun (evaluator : Evaluator ρ) : List (Start ρ) :=
  begunIn evaluator.expression
    { environment := evaluator.environment, resolver := evaluator.resolver }

/-! ## Moments one after the other -/

/-- A moment is that of the first token, or one after it. -/
theorem mem_preparations_cons {token : Token} {rest : List Token} {state : EvalState ρ}
    {moment : Moment ρ} (h : moment ∈ preparations (token :: rest) state) :
    (token.kind = .variableName ∧ moment = ⟨token.text, state⟩) ∨
      ∃ middle, moment ∈ preparations rest middle ∧
        (middle = state ∨ ∃ value, resolve token.text state = (.ok value, middle)) := by
  rw [preparations] at h
  split at h
  · next hkind =>
      rcases List.mem_cons.1 h with rfl | h
      · exact .inl ⟨hkind, rfl⟩
      · rcases hvalue : resolve token.text state with ⟨error | value, middle⟩
        · rw [hvalue] at h
          cases h
        · rw [hvalue] at h
          exact .inr ⟨middle, h, .inr ⟨value, rfl⟩⟩
  · exact .inr ⟨state, h, .inl rfl⟩

/-- A step that is taken is the first, or one after it. -/
theorem mem_stepsTaken_cons {room : Nat} {step : Step} {rest : List Step} {stack : List Float}
    {state : EvalState ρ} {taken : Taken ρ}
    (h : taken ∈ stepsTaken room (step :: rest) stack state) :
    taken = ⟨step, stack, state⟩ ∨
      ∃ stack' middle, takeStep room (applyWithin room) stack step state = (.ok stack', middle) ∧
        taken ∈ stepsTaken room rest stack' middle := by
  rw [stepsTaken] at h
  rcases List.mem_cons.1 h with rfl | h
  · exact .inl rfl
  · rcases hstep : takeStep room (applyWithin room) stack step state with ⟨error | stack', middle⟩
    · rw [hstep] at h
      cases h
    · rw [hstep] at h
      exact .inr ⟨stack', middle, rfl, h⟩

/-- Only variables are given their values before the first step. -/
theorem exists_of_mem_preparations {tokens : List Token} {state : EvalState ρ} {moment : Moment ρ}
    (h : moment ∈ preparations tokens state) :
    ∃ token ∈ tokens, token.kind = .variableName ∧ token.text = moment.name := by
  induction tokens generalizing state with
  | nil => cases h
  | cons token rest ih =>
      rcases mem_preparations_cons h with ⟨hkind, rfl⟩ | ⟨middle, hrest, -⟩
      · exact ⟨token, List.mem_cons_self, hkind, rfl⟩
      · obtain ⟨other, hother, hname⟩ := ih hrest
        exact ⟨other, List.mem_cons_of_mem _ hother, hname⟩

/-- Only steps of the program are taken. -/
theorem step_mem_of_mem_stepsTaken {room : Nat} {steps : List Step} {stack : List Float}
    {state : EvalState ρ} {taken : Taken ρ} (h : taken ∈ stepsTaken room steps stack state) :
    taken.step ∈ steps := by
  induction steps generalizing stack state with
  | nil => cases h
  | cons step rest ih =>
      rcases mem_stepsTaken_cons h with rfl | ⟨stack', middle, -, hrest⟩
      · exact List.mem_cons_self
      · exact List.mem_cons_of_mem _ (ih hrest)

/-- The steps are taken when all variables have their values. -/
theorem Start.exists_of_mem_taken {start : Start ρ} {taken : Taken ρ} (h : taken ∈ start.taken) :
    ∃ bound, bindVariables start.tokens.body start.state = (.ok (), bound) ∧
      taken ∈ stepsTaken start.room (Program.ofTokens start.tokens).steps [] bound := by
  rw [Start.taken] at h
  rcases hbound : bindVariables start.tokens.body start.state with ⟨error | _, bound⟩
  · rw [hbound] at h
    cases h
  · rw [hbound] at h
    exact ⟨bound, rfl, h⟩

/-- A name that is resolved is a variable among the tokens. -/
theorem Start.exists_of_mem_resolutions {start : Start ρ} {moment : Moment ρ}
    (h : moment ∈ start.resolutions) :
    ∃ token ∈ start.tokens.body, token.kind = .variableName ∧ token.text = moment.name := by
  rcases List.mem_append.1 h with hprepared | hloaded
  · exact exists_of_mem_preparations hprepared
  · obtain ⟨taken, htaken, hload⟩ := List.mem_filterMap.1 hloaded
    obtain ⟨bound, -, hmem⟩ := exists_of_mem_taken htaken
    have hstep := step_mem_of_mem_stepsTaken hmem
    rw [(Taken.eq_of_load? hload).1] at hstep
    exact Program.exists_of_load_mem_steps hstep

end Moments

/-! ## Properties of computations where they happen -/

namespace Evaluation

variable {ρ α : Type} [Resolver ρ]

/-- A property of computations, each in the state that it finds, that they hand on to what they are
put together to.  All parts of an evaluation have it that do not resolve names. -/
structure ClosedAt (property : ∀ {α : Type}, Evaluation ρ α → EvalState ρ → Prop) : Prop where
  pure : ∀ {α : Type} (value : α) (state : EvalState ρ), property (Pure.pure value) state
  throw : ∀ {α : Type} (error : EvalError) (state : EvalState ρ),
    (∀ name, error ≠ .unknownIdentifier name) →
    property (MonadExcept.throw error : Evaluation ρ α) state
  bind : ∀ {α β : Type} {first : Evaluation ρ α} {next : α → Evaluation ρ β} {state : EvalState ρ},
    property first state →
    (∀ value middle, first state = (.ok value, middle) → property (next value) middle) →
    property (first >>= next) state
  askFunction : ∀ (name : String) (state : EvalState ρ), property (askFunction name) state
  readText : ∀ (text : String) (extend : KnownNames → KnownNames) (state : EvalState ρ),
    property (readText text extend) state

namespace ClosedAt

variable {property : ∀ {α : Type}, Evaluation ρ α → EvalState ρ → Prop}

theorem bindVariables (h : ClosedAt property) {tokens : List Token} {state : EvalState ρ}
    (hresolve : ∀ moment ∈ preparations tokens state,
      property (resolve moment.name) moment.state) :
    property (bindVariables tokens) state := by
  induction tokens generalizing state with
  | nil => exact h.pure () state
  | cons token rest ih =>
      rw [preparations] at hresolve
      by_cases hkind : token.kind = .variableName
      · rw [if_pos hkind, List.forall_mem_cons] at hresolve
        rw [bindVariables_cons hkind]
        refine h.bind (h.bind hresolve.1 fun _ _ _ => h.pure () _) fun _ middle hfirst => ih ?_
        -- The others are given their values in the state that the first is resolved to.
        rw [discard_apply] at hfirst
        rcases hvalue : resolve token.text state with ⟨error | value, resolved⟩
        · rw [hvalue] at hfirst
          cases hfirst
        · rw [hvalue] at hfirst
          obtain ⟨-, rfl⟩ := Prod.mk.inj hfirst
          simpa only [hvalue] using hresolve.2
      · rw [if_neg hkind] at hresolve
        rw [bindVariables_cons_of_ne hkind]
        exact ih hresolve

/-- A function is applied.  If a body is evaluated, it has the property. -/
theorem applyFunction (h : ClosedAt property) {evaluate : TokenSequence → Evaluation ρ Float}
    {name : String} {argument : Float} {state : EvalState ρ}
    (hbody : ∀ tokens body, BuiltIn.ofName? name = none →
      bodyOf name argument state = some (tokens, body) → property (evaluate tokens) body) :
    property (applyFunction evaluate name argument) state := by
  rw [Evaluation.applyFunction]
  cases hname : BuiltIn.ofName? name with
  | some function => exact h.pure _ state
  | none =>
      refine h.bind (h.askFunction name state) fun function asked hasked => ?_
      by_cases hplaceholder : isIdentifier function.placeholder
      · rw [if_pos hplaceholder]
        refine h.bind (h.readText _ _ asked) fun tokens read hread => hbody _ _ hname ?_
        simp only [bodyOf, hasked, if_pos hplaceholder, hread]
      · rw [if_neg hplaceholder]
        exact h.throw _ asked (by simp)

theorem takeStep (h : ClosedAt property) {room : Nat} {taken : Taken ρ}
    (hload : ∀ moment, taken.load? = some moment → property (resolve moment.name) moment.state)
    (hbody : ∀ inner, taken.body? room = some inner →
      property (evaluateTokens inner.room inner.tokens) inner.state) :
    property (takeStep room (applyWithin room) taken.stack taken.step) taken.state := by
  obtain ⟨step, stack, state⟩ := taken
  cases step with
  | enter opened =>
      rw [Evaluation.takeStep]
      split
      · exact h.pure _ state
      · exact h.throw _ state (by simp)
  | literal value => exact h.pure _ state
  | load name => exact h.bind (hload _ rfl) fun _ _ _ => h.pure _ _
  | negate => cases stack <;> exact h.pure _ state
  | combine operator =>
      rcases stack with _ | ⟨right, _ | ⟨left, stack⟩⟩ <;> exact h.pure _ state
  | apply name opened =>
      cases stack with
      | nil => exact h.pure _ state
      | cons argument stack =>
          refine h.bind ?_ fun _ _ _ => h.pure _ _
          rw [applyWithin]
          by_cases hroom : opened < room
          · rw [if_pos hroom]
            refine h.applyFunction fun tokens body hname hbodyOf => ?_
            refine hbody ⟨room - (opened + 1), tokens, body⟩ ?_
            rw [Taken.body?, if_pos ⟨hroom, hname⟩, hbodyOf]
            rfl
          · rw [if_neg hroom]
            exact h.throw _ state (by simp)

theorem foldlM_takeStep (h : ClosedAt property) {room : Nat} {steps : List Step}
    {stack : List Float} {state : EvalState ρ}
    (hload : ∀ taken ∈ stepsTaken room steps stack state, ∀ moment,
      taken.load? = some moment → property (resolve moment.name) moment.state)
    (hbody : ∀ taken ∈ stepsTaken room steps stack state, ∀ inner,
      taken.body? room = some inner →
      property (evaluateTokens inner.room inner.tokens) inner.state) :
    property (steps.foldlM (Evaluation.takeStep room (applyWithin room)) stack) state := by
  induction steps generalizing stack state with
  | nil => exact h.pure stack state
  | cons step rest ih =>
      rw [stepsTaken, List.forall_mem_cons] at hload hbody
      rw [List.foldlM_cons]
      refine h.bind (h.takeStep hload.1 hbody.1) fun stack' middle hstep => ?_
      simp only [hstep] at hload hbody
      exact ih hload.2 hbody.2

/-- The evaluation of a token sequence has the property where it begins, if resolving a name has it
at every moment at which a name is resolved. -/
theorem evaluateTokens (h : ClosedAt property) {start : Start ρ}
    (hresolve : ∀ inner ∈ start.begun, ∀ moment ∈ inner.resolutions,
      property (resolve moment.name) moment.state) :
    property (evaluateTokens start.room start.tokens) start.state := by
  -- The induction is on what begins in the course of what: the moments in a body are among those
  -- of the evaluation that it belongs to.
  induction start using Start.begun.induct with
  | case1 start ih =>
      have hself := hresolve start start.mem_begun_self
      rw [Evaluation.evaluateTokens]
      refine h.bind (h.bindVariables fun moment hmoment => hself moment ?_) ?_
      · exact List.mem_append_left _ hmoment
      · intro _ bound hbound
        have htaken : start.taken
            = stepsTaken start.room (Program.ofTokens start.tokens).steps [] bound := by
          rw [Start.taken, hbound]
        refine h.bind (h.foldlM_takeStep ?_ ?_) fun stack middle _ => ?_
        -- The loads are moments of this evaluation; what is applied is built in or a body.
        · intro taken hmem moment hload
          refine hself moment (List.mem_append_right _ (List.mem_filterMap.2 ⟨taken, ?_, hload⟩))
          rwa [htaken]
        · intro taken hmem inner hbody
          have hinner : inner ∈ start.bodies :=
            List.mem_filterMap.2 ⟨taken, by rwa [htaken], hbody⟩
          exact ih inner hinner fun deeper hdeeper =>
            hresolve deeper (Start.mem_begun_of_mem_bodies hinner hdeeper)
        · cases (Program.ofTokens start.tokens).offending with
          | some token => exact h.throw _ middle (by simp)
          | none => exact h.pure _ middle

/-- So does the evaluation of a text. -/
theorem evaluateText (h : ClosedAt property) {text : String} {state : EvalState ρ}
    (hresolve : ∀ start ∈ begunIn text state, ∀ moment ∈ start.resolutions,
      property (resolve moment.name) moment.state) :
    property (evaluateText text) state := by
  refine h.bind (h.readText text id state) fun tokens read hread => ?_
  rw [readText_apply] at hread
  rw [begunIn] at hresolve
  cases hlexed : tokenize state.environment.knownNames text with
  | error error =>
      rw [id, hlexed] at hread
      cases hread
  | ok tokens' =>
      rw [id, hlexed] at hread
      rw [hlexed] at hresolve
      obtain ⟨htokens, rfl⟩ := Prod.mk.inj hread
      obtain rfl := Except.ok.inj htokens
      exact h.evaluateTokens hresolve

end ClosedAt

end Evaluation

end Reckoner
