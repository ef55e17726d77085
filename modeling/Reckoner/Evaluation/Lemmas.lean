/-
  Reckoner.Evaluation.Lemmas

  How evaluations change their state.

  An evaluation is put together from resolving names, asking for functions and reading texts. So a
  property that these have, and that computations hand on to what they are put together to, holds
  of every evaluation (`Closed.evaluateText`). Relations between the states before and after are
  such properties: `Lasting` ones, which may be others for values than for errors, and `Stable`
  ones, which do not tell the difference. Where an evaluation has a property only because of what
  it reads, the rules of `Yields` follow it part by part.
-/
import Reckoner.Evaluation.Basic

namespace Reckoner.Evaluation

variable {ρ α β : Type}

/-! ## Computations one after the other -/

theorem bind_apply (first : Evaluation ρ α) (next : α → Evaluation ρ β) (state : EvalState ρ) :
    (first >>= next) state =
      match first state with
      | (.ok value, state) => next value state
      | (.error error, state) => (.error error, state) := by
  simp only [bind, ExceptT.bind, ExceptT.mk, StateT.bind]
  rcases first state with ⟨error | value, state'⟩ <;> rfl

theorem discard_apply (computation : Evaluation ρ α) (state : EvalState ρ) :
    discard computation state =
      match computation state with
      | (.ok _, state) => (.ok (), state)
      | (.error error, state) => (.error error, state) :=
  bind_apply computation (fun _ => pure ()) state

/-- Reading a text changes nothing. -/
theorem readText_apply (text : String) (extend : KnownNames → KnownNames) (state : EvalState ρ) :
    readText text extend state =
      match tokenize (extend state.environment.knownNames) text with
      | .ok tokens => (.ok tokens, state)
      | .error error => (.error (.lexical error), state) := by
  show (match tokenize (extend state.environment.knownNames) text with
    | .ok tokens => (pure tokens : Evaluation ρ TokenSequence)
    | .error error => throw (EvalError.lexical error)) state = _
  cases tokenize (extend state.environment.knownNames) text <;> rfl

/-! ## Requests -/

section Requests

variable [Resolver ρ]

/-- Resolving a name asks for its value or leaves the resolver alone. -/
theorem resolver_resolve (name : String) (state : EvalState ρ) :
    (resolve name state).2.resolver = state.resolver ∨
      (resolve name state).2.resolver = (Resolver.value state.resolver name).2 := by
  unfold resolve
  split
  · exact .inl rfl
  · exact .inl rfl
  · refine .inr ?_
    unfold askValue
    rcases (Resolver.value state.resolver name) with ⟨reason | value, resolver⟩ <;> rfl

/-! ## Variables before the first step -/

theorem bindVariables_cons {token : Token} (h : token.kind = .variableName) (rest : List Token) :
    (bindVariables (token :: rest) : Evaluation ρ Unit)
      = discard (resolve token.text) >>= fun _ => bindVariables rest := by
  rw [bindVariables, List.filter_cons_of_pos (by simpa using h)]
  rfl

theorem bindVariables_cons_of_variable {token : Token} (h : token.kind = .variableName)
    (rest : List Token) (state : EvalState ρ) :
    bindVariables (token :: rest) state =
      match resolve token.text state with
      | (.ok _, state) => bindVariables rest state
      | (.error error, state) => (.error error, state) := by
  rw [bindVariables_cons h, bind_apply, discard_apply]
  rcases resolve token.text state with ⟨error | value, state'⟩ <;> rfl

theorem bindVariables_cons_of_ne {token : Token} (h : token.kind ≠ .variableName)
    (rest : List Token) :
    (bindVariables (token :: rest) : Evaluation ρ Unit) = bindVariables rest := by
  rw [bindVariables, List.filter_cons_of_neg (by simpa using h), bindVariables]

end Requests

/-! ## Properties of evaluations -/

section Properties

variable [Resolver ρ]

/-- A property that the parts of an evaluation have, and with them what they are put together
to.  Only resolving and asking report refusals; no other part ends in one. -/
structure Closed (property : ∀ {α : Type}, Evaluation ρ α → Prop) : Prop where
  pure : ∀ {α : Type} (value : α), property (Pure.pure value)
  throw : ∀ {α : Type} (error : EvalError), (∀ name reason, error ≠ .unanswered name reason) →
    property (MonadExcept.throw error : Evaluation ρ α)
  bind : ∀ {α β : Type} {first : Evaluation ρ α} {next : α → Evaluation ρ β}, property first →
    (∀ value, property (next value)) → property (first >>= next)
  resolve : ∀ name, property (resolve name)
  askFunction : ∀ name, property (askFunction name)
  readText : ∀ text extend, property (readText text extend)

namespace Closed

variable {property : ∀ {α : Type}, Evaluation ρ α → Prop}

theorem foldlM (h : Closed property) {α β : Type} {step : β → α → Evaluation ρ β}
    (hstep : ∀ value item, property (step value item)) (items : List α) (value : β) :
    property (items.foldlM step value) := by
  induction items generalizing value with
  | nil => exact h.pure value
  | cons item items ih => exact h.bind (hstep value item) ih

theorem bindVariables (h : Closed property) (tokens : List Token) :
    property (bindVariables tokens) := by
  unfold Evaluation.bindVariables
  induction tokens.filter (·.kind = .variableName) with
  | nil => exact h.pure ()
  | cons token rest ih =>
      have hfirst : property (discard (Evaluation.resolve token.text)) :=
        h.bind (h.resolve token.text) fun _ => h.pure ()
      exact h.bind hfirst fun _ => ih

theorem applyFunction (h : Closed property) {evaluate : TokenSequence → Evaluation ρ Float}
    (hevaluate : ∀ tokens, property (evaluate tokens)) (name : String) (argument : Float) :
    property (applyFunction evaluate name argument) := by
  unfold Evaluation.applyFunction
  cases BuiltIn.ofName? name with
  | some function => exact h.pure _
  | none =>
      refine h.bind (h.askFunction name) fun function => ?_
      split
      · exact h.bind (h.readText _ _) fun tokens => hevaluate _
      · exact h.throw _ nofun

theorem takeStep (h : Closed property) {apply : Nat → String → Float → Evaluation ρ Float}
    (happly : ∀ opened name argument, property (apply opened name argument)) (room : Nat)
    (stack : List Float) (step : Step) : property (takeStep room apply stack step) := by
  cases step with
  | enter opened =>
      show property (if opened < room then Pure.pure stack else MonadExcept.throw _)
      split
      · exact h.pure _
      · exact h.throw _ nofun
  | literal value => exact h.pure _
  | load name => exact h.bind (h.resolve name) fun value => h.pure _
  | negate => cases stack <;> exact h.pure _
  | combine operator =>
      rcases stack with _ | ⟨right, _ | ⟨left, stack⟩⟩ <;> exact h.pure _
  | apply function opened =>
      cases stack with
      | nil => exact h.pure _
      | cons argument stack =>
          exact h.bind (happly opened function argument) fun value => h.pure _

theorem runProgram (h : Closed property) {apply : Nat → String → Float → Evaluation ρ Float}
    (happly : ∀ opened name argument, property (apply opened name argument)) (room : Nat)
    (program : Program) : property (runProgram room apply program) := by
  refine h.bind (h.foldlM (h.takeStep happly room) _ []) ?_
  intro stack
  cases program.offending with
  | some token => exact h.throw _ nofun
  | none => exact h.pure _

/-- The evaluation of a token sequence has the closed properties. -/
theorem evaluateTokens (h : Closed property) (room : Nat) (tokens : TokenSequence) :
    property (evaluateTokens room tokens) := by
  -- A body has less room than the application it belongs to.
  induction room using Nat.strongRecOn generalizing tokens with
  | ind room ih =>
      rw [Evaluation.evaluateTokens]
      refine h.bind (h.bindVariables tokens.body) fun _ => h.runProgram ?_ room _
      intro opened name argument
      by_cases hroom : opened < room
      · rw [if_pos hroom]
        exact h.applyFunction (ih _ (by omega)) name argument
      · rw [if_neg hroom]
        exact h.throw _ nofun

/-- The evaluation of a text has the closed properties. -/
theorem evaluateText (h : Closed property) (text : String) : property (evaluateText text) :=
  h.bind (h.readText text id) fun tokens => h.evaluateTokens nestingLimit tokens

end Closed

end Properties

/-! ## Invariants, values and errors -/

/-- The computation keeps the invariant.  A value has the property, and an error is an expected
one. -/
def Yields (invariant : EvalState ρ → Prop) (expected : EvalError → Prop)
    (computation : Evaluation ρ α) (property : α → Prop) : Prop :=
  ∀ state, invariant state →
    invariant (computation state).2 ∧
      match (computation state).1 with
      | .ok value => property value
      | .error error => expected error

section Yields

variable {invariant : EvalState ρ → Prop} {expected : EvalError → Prop} {property : α → Prop}
  {property' : β → Prop}

theorem yields_pure {value : α} (h : property value) :
    Yields invariant expected (pure value : Evaluation ρ α) property :=
  fun _ hstate => ⟨hstate, h⟩

theorem yields_throw {error : EvalError} (h : expected error) :
    Yields invariant expected (throw error : Evaluation ρ α) property :=
  fun _ hstate => ⟨hstate, h⟩

theorem Yields.bind {first : Evaluation ρ α} {next : α → Evaluation ρ β}
    (h : Yields invariant expected first property)
    (hnext : ∀ value, property value → Yields invariant expected (next value) property') :
    Yields invariant expected (first >>= next) property' := by
  intro state hstate
  obtain ⟨hmiddle, hresult⟩ := h state hstate
  rw [bind_apply]
  rcases hfirst : first state with ⟨error | value, middle⟩
  · rw [hfirst] at hmiddle hresult
    exact ⟨hmiddle, hresult⟩
  · rw [hfirst] at hmiddle hresult
    exact hnext value hresult middle hmiddle

theorem Yields.discard {computation : Evaluation ρ α}
    (h : Yields invariant expected computation property) :
    Yields invariant expected (discard computation) fun _ => True :=
  h.bind fun _ _ => yields_pure trivial

theorem yields_forM {action : α → Evaluation ρ Unit} {items : List α}
    (h : ∀ item ∈ items, Yields invariant expected (action item) fun _ => True) :
    Yields invariant expected (items.forM action) fun _ => True := by
  induction items with
  | nil => exact yields_pure trivial
  | cons item items ih =>
      obtain ⟨hitem, hitems⟩ := List.forall_mem_cons.1 h
      exact hitem.bind fun _ _ => ih hitems

theorem yields_foldlM {step : β → α → Evaluation ρ β} {items : List α}
    (hstep : ∀ item ∈ items, ∀ value,
      Yields invariant expected (step value item) fun _ => True) (value : β) :
    Yields invariant expected (items.foldlM step value) fun _ => True := by
  induction items generalizing value with
  | nil => exact yields_pure trivial
  | cons item items ih =>
      obtain ⟨hitem, hitems⟩ := List.forall_mem_cons.1 hstep
      exact (hitem value).bind fun value' _ => ih hitems value'

/-- A step fails by its load, by its application or at the nesting limit. -/
theorem yields_takeStep [Resolver ρ] {room : Nat}
    {apply : Nat → String → Float → Evaluation ρ Float} {step : Step} (stack : List Float)
    (hlimit : expected (.nestingLimit nestingLimit))
    (hload : ∀ name, step = .load name →
      Yields invariant expected (resolve name) fun _ => True)
    (happly : ∀ name opened argument, step = .apply name opened →
      Yields invariant expected (apply opened name argument) fun _ => True) :
    Yields invariant expected (takeStep room apply stack step) fun _ => True := by
  cases step with
  | enter opened =>
      rw [takeStep]
      split
      · exact yields_pure trivial
      · exact yields_throw hlimit
  | literal value => exact yields_pure trivial
  | load name => exact (hload name rfl).bind fun _ _ => yields_pure trivial
  | negate => cases stack <;> exact yields_pure trivial
  | combine operator =>
      rcases stack with _ | ⟨right, _ | ⟨left, stack⟩⟩ <;> exact yields_pure trivial
  | apply function opened =>
      cases stack with
      | nil => exact yields_pure trivial
      | cons argument stack =>
          exact (happly function opened argument rfl).bind fun _ _ => yields_pure trivial

end Yields

/-! ## Relations kept by computations -/

/-- The relation leads from the state before the computation to the state after it. -/
def Keeps (relation : EvalState ρ → EvalState ρ → Prop) (computation : Evaluation ρ α) : Prop :=
  ∀ state, relation state (computation state).2

/-- The one relation leads from the state before the computation to the state after it if there is
a value, and the other if there is an error. -/
def Leads (done failed : EvalState ρ → EvalState ρ → Prop) (computation : Evaluation ρ α) : Prop :=
  ∀ state,
    match computation state with
    | (.ok _, after) => done state after
    | (.error _, after) => failed state after

variable {relation done failed : EvalState ρ → EvalState ρ → Prop}

/-- Keeping a relation is being led by it whatever the result. -/
theorem keeps_iff_leads {computation : Evaluation ρ α} :
    Keeps relation computation ↔ Leads relation relation computation := by
  refine forall_congr' fun state => ?_
  rcases computation state with ⟨error | value, after⟩ <;> exact Iff.rfl

theorem leads_bind (trans : ∀ first second third, done first second →
      done second third → done first third)
    (fails : ∀ first second third, done first second → failed second third → failed first third)
    {first : Evaluation ρ α} {next : α → Evaluation ρ β} (leadsFirst : Leads done failed first)
    (leadsNext : ∀ value, Leads done failed (next value)) :
    Leads done failed (first >>= next) := by
  intro state
  have reached := leadsFirst state
  rw [bind_apply]
  rcases eq : first state with ⟨error | value, state'⟩
  · rw [eq] at reached
    exact reached
  · rw [eq] at reached
    have further := leadsNext value state'
    simp only
    rcases eq' : next value state' with ⟨error | result, after⟩
    · rw [eq'] at further
      exact fails _ _ _ reached further
    · rw [eq'] at further
      exact trans _ _ _ reached further

theorem keeps_bind (trans : ∀ first second third, relation first second →
      relation second third → relation first third)
    {first : Evaluation ρ α} {next : α → Evaluation ρ β} (keepsFirst : Keeps relation first)
    (keepsNext : ∀ value, Keeps relation (next value)) : Keeps relation (first >>= next) :=
  keeps_iff_leads.2 <| leads_bind trans trans (keeps_iff_leads.1 keepsFirst)
    fun value => keeps_iff_leads.1 (keepsNext value)

/-! ## Relations kept by evaluations -/

variable [Resolver ρ]

/-- Two relations, for values and for errors, along which the two computations that change a state
lead. Only what has not failed can be followed by anything. -/
structure Lasting (done failed : EvalState ρ → EvalState ρ → Prop) : Prop where
  refl : ∀ state, done state state
  trans : ∀ first second third, done first second → done second third → done first third
  stops : ∀ state, failed state state
  fails : ∀ first second third, done first second → failed second third → failed first third
  resolve : ∀ name, Leads done failed (resolve name)
  askFunction : ∀ name, Leads done failed (askFunction name)

theorem Lasting.closed (h : Lasting done failed) :
    Closed fun {α} (computation : Evaluation ρ α) => Leads done failed computation where
  pure := fun _ state => h.refl state
  throw := fun _ _ state => h.stops state
  bind := leads_bind h.trans h.fails
  resolve := h.resolve
  askFunction := h.askFunction
  readText := by
    intro text extend state
    rw [Evaluation.readText_apply]
    cases tokenize (extend state.environment.knownNames) text with
    | ok tokens => exact h.refl state
    | error error => exact h.stops state

/-- A relation that holds across pauses and successions, and that is kept by the two computations
that change a state. -/
structure Stable (relation : EvalState ρ → EvalState ρ → Prop) : Prop where
  refl : ∀ state, relation state state
  trans : ∀ first second third, relation first second →
    relation second third → relation first third
  resolve : ∀ name, Keeps relation (resolve name)
  askFunction : ∀ name, Keeps relation (askFunction name)

/-- A stable relation lasts whether or not there is a value. -/
theorem Stable.lasting (h : Stable relation) : Lasting relation relation where
  refl := h.refl
  trans := h.trans
  stops := h.refl
  fails := h.trans
  resolve := fun name => keeps_iff_leads.1 (h.resolve name)
  askFunction := fun name => keeps_iff_leads.1 (h.askFunction name)

/-- A stable relation is kept by the evaluation of a text. -/
theorem Stable.evaluateText (h : Stable relation) (text : String) :
    Keeps relation (evaluateText text) :=
  keeps_iff_leads.2 (h.lasting.closed.evaluateText text)

end Reckoner.Evaluation
