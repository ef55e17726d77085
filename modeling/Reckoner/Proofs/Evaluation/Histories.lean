/-
  Reckoner.Proofs.Evaluation.Histories

  Runs of an evaluator, and how often a variable is asked for in them.

  A run is a sequence of calls; its history says for each call what it gave back and what the
  resolver was asked and answered meanwhile.  A name becomes bound by a call that sets it or by an
  answer, and unbound by a new expression or a declaration only.  So between two calls that unbind
  it a name is answered at most once, and what it was bound to can be read until it is set or
  unbound (`Evaluator.history_answers`).

  Each call is treated by itself first: what is bound stays bound and is not asked for
  (`value?_perform`), what is unknown stays unknown and is not asked for (`not_isKnown_perform`),
  and what has been bound or answered is bound afterwards (`value?_of_provides`).  The run lemmas
  follow by induction on the calls.
-/
import Reckoner.Proofs.Evaluation.Entries
import Reckoner.Proofs.Evaluation.Frame
import Reckoner.Proofs.Evaluation.Reachable

namespace Reckoner

/-! ## Calls and what they come to -/

/-- The calls of an evaluator.  The last four only read. -/
inductive Call
  | setExpression (text : String)
  | setVariable (name : String) (value : Float)
  | declareVariable (name : String)
  | evaluate
  | expression
  | value (name : String)
  | tokenize (text : String)
  | environment

/-- What a call gives back. -/
inductive Response
  | done
  /-- Whether the name was known. -/
  | bound (known : Bool)
  | declared (outcome : Except EvalError Unit)
  | result (result : Except EvalError Float)
  | expression (text : String)
  | value (value : Option Float)
  | tokens (outcome : Except EvalError TokenSequence)
  | environment (environment : Environment)

/-- A call, what it gave back, and what the resolver was asked and answered meanwhile. -/
structure Event where
  call : Call
  response : Response
  exchanges : List Exchange := []

/-- The value by which the exchange answers the request for a variable, if it does. -/
def Exchange.answer? (name : String) : Exchange → Option Float
  | .value asked (.ok answer) => if asked = name then some answer else none
  | _ => none

theorem Exchange.answer?_eq_some_iff {name : String} {x : Float} {exchange : Exchange} :
    exchange.answer? name = some x ↔ exchange = .value name (.ok x) := by
  rw [answer?.eq_def]
  split
  · next asked answer =>
      by_cases hname : asked = name
      · simp [hname]
      · simp [hname]
  · next hne =>
      refine iff_of_false nofun ?_
      rintro rfl
      exact hne _ _ rfl

/-- The values by which a variable was answered, in order. -/
def answersIn (name : String) (exchanges : List Exchange) : List Float :=
  exchanges.filterMap (·.answer? name)

theorem mem_answersIn {name : String} {value : Float} {exchanges : List Exchange} :
    value ∈ answersIn name exchanges ↔ .value name (.ok value) ∈ exchanges := by
  simp [answersIn, List.mem_filterMap, Exchange.answer?_eq_some_iff]

namespace Event

/-- The call makes the name unbound: a new expression does so for the conventional names, a
declaration that succeeds for its name, unless that is a constant. -/
def Unbinds (event : Event) (name : String) : Prop :=
  ((∃ text, event.call = .setExpression text) ∧ name ∈ Environment.conventional) ∨
  (event.call = .declareVariable name ∧ event.response = .declared (.ok ()) ∧
    ¬ Environment.isConstant name)

/-- The call is to bind the name, be it known or not. -/
def Sets (event : Event) (name : String) : Prop :=
  ∃ value, event.call = .setVariable name value

/-- The variable is asked for, whatever the answer. -/
def Asks (event : Event) (name : String) : Prop :=
  ∃ answer, .value name answer ∈ event.exchanges

/-- The name is bound to the value, by the call itself or by an answer. -/
def Provides (event : Event) (name : String) (value : Float) : Prop :=
  (event.call = .setVariable name value ∧ event.response = .bound true) ∨
  .value name (.ok value) ∈ event.exchanges

/-- The values by which the variable was answered. -/
def answers (event : Event) (name : String) : List Float :=
  answersIn name event.exchanges

end Event

namespace Evaluator

variable {ρ : Type} [Resolver ρ]

/-- Carries out a call. -/
def perform (evaluator : Evaluator ρ) (call : Call) : Event × Evaluator ρ :=
  match call with
  | .setExpression text => (⟨call, .done, []⟩, evaluator.setExpression text)
  | .setVariable name value =>
    let (known, next) := evaluator.setVariable name value
    (⟨call, .bound known, []⟩, next)
  | .declareVariable name =>
    match evaluator.declareVariable name with
    | .ok next => (⟨call, .declared (.ok ()), []⟩, next)
    | .error error => (⟨call, .declared (.error error), []⟩, evaluator)
  | .evaluate =>
    let outcome := evaluator.evaluate
    (⟨call, .result outcome.result, exchanges evaluator.resolver outcome.asked⟩, outcome.evaluator)
  | .expression => (⟨call, .expression evaluator.expression, []⟩, evaluator)
  | .value name => (⟨call, .value (evaluator.value? name), []⟩, evaluator)
  | .tokenize text => (⟨call, .tokens (evaluator.tokenize text), []⟩, evaluator)
  | .environment => (⟨call, .environment evaluator.environment, []⟩, evaluator)

/-- The evaluator before all calls. -/
def fresh (resolver : ρ) : Evaluator ρ :=
  { resolver }

/-- The events of calls, one after the other. -/
def history (evaluator : Evaluator ρ) : List Call → List Event
  | [] => []
  | call :: rest => (evaluator.perform call).1 :: history (evaluator.perform call).2 rest

/-- The evaluator after calls, one after the other. -/
def after (evaluator : Evaluator ρ) : List Call → Evaluator ρ
  | [] => evaluator
  | call :: rest => after (evaluator.perform call).2 rest

end Evaluator

/-! ## What evaluations ask for -/

section Answers

variable {ρ : Type} [Resolver ρ]

/-- What the requests make of a state, as `Extends` says; moreover only known names are asked for,
and none is answered twice. -/
structure AnswersOnce (requests : List Request) (before after : EvalState ρ) : Prop
    extends Extends requests before after where
  known : ∀ name, .value name ∈ requests → before.environment.isKnown name
  once : ∀ name, (answersIn name (exchanges before.resolver requests)).length ≤ 1

theorem answersIn_append (name : String) (first second : List Exchange) :
    answersIn name (first ++ second) = answersIn name first ++ answersIn name second :=
  List.filterMap_append

/-- No answer to what is not asked for. -/
theorem answersIn_exchanges_eq_nil {resolver : ρ} {requests : List Request} {name : String}
    (h : .value name ∉ requests) : answersIn name (exchanges resolver requests) = [] := by
  rw [List.eq_nil_iff_forall_not_mem]
  intro value hvalue
  exact h (value_mem_of_mem_exchanges (mem_answersIn.1 hvalue))

namespace AnswersOnce

theorem refl (state : EvalState ρ) : AnswersOnce [] state state where
  toExtends := .refl state
  known := nofun
  once := fun _ => Nat.zero_le 1

theorem trans {requests requests' : List Request} {first second third : EvalState ρ}
    (h : AnswersOnce requests first second) (h' : AnswersOnce requests' second third) :
    AnswersOnce (requests ++ requests') first third where
  toExtends := h.toExtends.trans h'.toExtends
  known := by
    intro name hname
    rcases List.mem_append.1 hname with hname | hname
    · exact h.known name hname
    · rw [← Environment.isKnown_eq_of_names_eq h.names]
      exact h'.known name hname
  once := by
    intro name
    rw [exchanges_append, answersIn_append, List.length_append, ← h.resolver]
    rcases hfirst : answersIn name (exchanges first.resolver requests) with _ | ⟨value, more⟩
    · simpa using h'.once name
    · -- The first answer has bound the name, so it is not asked for again.
      have hmem : .value name (.ok value) ∈ exchanges first.resolver requests := by
        rw [← mem_answersIn, hfirst]
        exact List.mem_cons_self
      have hunbound := h.unbound name (value_mem_of_mem_exchanges hmem)
      have hbound := (h.answered name value hunbound).2 hmem
      have hsettled : .value name ∉ requests' := by
        intro hname
        have hsecond := h'.unbound name hname
        rw [hbound] at hsecond
        cases hsecond
      rw [answersIn_exchanges_eq_nil hsettled, ← hfirst]
      exact h.once name

/-- A single request is answered once at most. -/
theorem of_extends {request : Request} {before after : EvalState ρ}
    (h : Extends [request] before after)
    (hknown : ∀ name, .value name = request → before.environment.isKnown name) :
    AnswersOnce [request] before after where
  toExtends := h
  known := fun name hname => hknown name (List.mem_singleton.1 hname)
  once := fun _ => List.length_filterMap_le _ _

end AnswersOnce

namespace Evaluation

theorem stable_answersOnce :
    Stable fun before after : EvalState ρ => ∃ requests, AnswersOnce requests before after where
  refl := fun state => ⟨[], .refl state⟩
  trans := fun _ _ _ ⟨_, h⟩ ⟨_, h'⟩ => ⟨_, h.trans h'⟩
  resolve := by
    intro name state
    have hasked (hknown : state.environment.isKnown name) (other : String)
        (hother : Request.value other = .value name) : state.environment.isKnown other := by
      rwa [Request.value.inj hother]
    rcases resolve_cases name state with ⟨value, -, hresolve⟩ | ⟨-, hresolve⟩ |
      ⟨reason | value, resolver, hknown, hunbound, hanswer, hresolve⟩
    · rw [hresolve]
      exact ⟨[], .refl state⟩
    · rw [hresolve]
      exact ⟨[], .refl state⟩
    · rw [hresolve]
      exact ⟨_, .of_extends (extends_of_refused hanswer hunbound) (hasked hknown)⟩
    · rw [hresolve]
      exact ⟨_, .of_extends (extends_of_answered hanswer hknown hunbound) (hasked hknown)⟩
  askFunction := by
    intro name state
    -- A request for a function answers no variable.
    obtain ⟨requests, h⟩ := keeps_extended_askFunction name state
    obtain rfl : [.function name] = requests := List.append_cancel_left h.asked
    exact ⟨_, .of_extends h nofun⟩

end Evaluation

/-- The requests of an evaluation bind names and answer each once at most. -/
theorem Evaluator.answersOnce_evaluate (evaluator : Evaluator ρ) :
    AnswersOnce evaluator.evaluate.asked
      { environment := evaluator.environment, resolver := evaluator.resolver }
      { environment := evaluator.evaluate.evaluator.environment,
        resolver := evaluator.evaluate.evaluator.resolver, asked := evaluator.evaluate.asked } := by
  obtain ⟨requests, h⟩ := Evaluation.stable_answersOnce.evaluateText evaluator.expression
    { environment := evaluator.environment, resolver := evaluator.resolver }
  obtain rfl : evaluator.evaluate.asked = requests := h.asked
  exact h

end Answers

/-! ## One call -/

namespace Evaluator

variable {ρ : Type} [Resolver ρ] {evaluator : Evaluator ρ} {call : Call} {name : String}

/-- The resolver is asked by evaluations only. -/
theorem exchanges_perform (h : call ≠ .evaluate) : (evaluator.perform call).1.exchanges = [] := by
  cases call with
  | evaluate => exact absurd rfl h
  | declareVariable new =>
      rw [perform]
      cases evaluator.declareVariable new <;> rfl
  | setExpression | setVariable | expression | value | tokenize | environment => rfl

theorem not_asks_perform (h : call ≠ .evaluate) : ¬ (evaluator.perform call).1.Asks name := by
  rintro ⟨answer, hanswer⟩
  rw [exchanges_perform h] at hanswer
  cases hanswer

theorem perform_declareVariable_of_ok {declared : Environment} {new : String}
    (h : evaluator.environment.declare new = .ok declared) :
    evaluator.perform (.declareVariable new)
      = (⟨.declareVariable new, .declared (.ok ()), []⟩,
          { evaluator with environment := declared }) := by
  simp only [perform, declareVariable, h, Except.map]

theorem perform_declareVariable_of_error {error : EvalError} {new : String}
    (h : evaluator.environment.declare new = .error error) :
    evaluator.perform (.declareVariable new)
      = (⟨.declareVariable new, .declared (.error error), []⟩, evaluator) := by
  simp only [perform, declareVariable, h, Except.map]

/-- A call that neither evaluates nor unbinds or sets a name leaves its entry as it was. -/
theorem find?_perform (hevaluate : call ≠ .evaluate)
    (hunbinds : ¬ (evaluator.perform call).1.Unbinds name)
    (hsets : ¬ (evaluator.perform call).1.Sets name) :
    (evaluator.perform call).2.environment.entries.find? name
      = evaluator.environment.entries.find? name := by
  cases call with
  | evaluate => exact absurd rfl hevaluate
  | setExpression text =>
      exact Environment.find?_resetConventional fun hmem => hunbinds (.inl ⟨⟨text, rfl⟩, hmem⟩)
  | declareVariable new =>
      cases hdeclared : evaluator.environment.declare new with
      | ok declared =>
          rw [perform_declareVariable_of_ok hdeclared] at hunbinds ⊢
          refine Environment.find?_declare hdeclared ?_
          rintro rfl
          by_contra hconstant
          exact hunbinds (.inr ⟨rfl, rfl, hconstant⟩)
      | error error => rw [perform_declareVariable_of_error hdeclared]
  | setVariable set value =>
      have hne : name ≠ set := by
        rintro rfl
        exact hsets ⟨value, rfl⟩
      show (evaluator.environment.bind set value).entries.find? name = _
      rw [Environment.bind]
      split
      · exact NameMap.find?_insert_of_ne _ hne _
      · rfl
  | expression | value | tokenize | environment => rfl

theorem call_perform (evaluator : Evaluator ρ) (call : Call) :
    (evaluator.perform call).1.call = call := by
  cases call with
  | declareVariable new =>
      rw [perform]
      cases evaluator.declareVariable new <;> rfl
  | setExpression | setVariable | evaluate | expression | value | tokenize | environment => rfl

/-- Setting a known name binds it. -/
theorem value?_perform_setVariable (value : Float) (hknown : evaluator.environment.isKnown name) :
    (evaluator.perform (.setVariable name value)).2.value? name = some value := by
  show (evaluator.environment.bind name value).value? name = some value
  rw [Environment.bind, if_pos hknown, Environment.value?_set, if_pos rfl]

/-- What is bound is not asked for.  Unless the call unbinds it, it stays bound, and to the same
value unless the call sets it. -/
theorem value?_perform {value : Float} (hvalue : evaluator.value? name = some value)
    (hunbinds : ¬ (evaluator.perform call).1.Unbinds name) :
    ¬ (evaluator.perform call).1.Asks name ∧
    (∃ value', (evaluator.perform call).2.value? name = some value') ∧
    (¬ (evaluator.perform call).1.Sets name →
      (evaluator.perform call).2.value? name = some value) := by
  by_cases hevaluate : call = .evaluate
  · subst hevaluate
    -- An evaluation binds names only, and asks for those only that were unbound before it.
    have hanswers := answersOnce_evaluate evaluator
    have hbound : evaluator.evaluate.evaluator.value? name = some value :=
      hanswers.bound name value hvalue
    refine ⟨?_, ⟨value, hbound⟩, fun _ => hbound⟩
    rintro ⟨answer, hanswer⟩
    have hunbound : evaluator.value? name = none :=
      hanswers.unbound name (value_mem_of_mem_exchanges hanswer)
    rw [hvalue] at hunbound
    cases hunbound
  · have hkeeps (hsets : ¬ (evaluator.perform call).1.Sets name) :
        (evaluator.perform call).2.value? name = some value := by
      rw [value?, Environment.value?, find?_perform hevaluate hunbinds hsets]
      exact hvalue
    refine ⟨not_asks_perform hevaluate, ?_, hkeeps⟩
    by_cases hsets : (evaluator.perform call).1.Sets name
    · obtain ⟨value', hcall⟩ := hsets
      rw [call_perform] at hcall
      have hbound : evaluator.environment.isBound name := by
        rw [Environment.isBound, show evaluator.environment.value? name = some value from hvalue]
        rfl
      rw [hcall]
      exact ⟨value', value?_perform_setVariable value' (Environment.isKnown_of_isBound hbound)⟩
    · exact ⟨value, hkeeps hsets⟩

/-- What is unknown is not asked for, and only a call that makes it unbound makes it known. -/
theorem not_isKnown_perform (hunknown : ¬ evaluator.environment.isKnown name)
    (hunbinds : ¬ (evaluator.perform call).1.Unbinds name) :
    ¬ (evaluator.perform call).1.Asks name ∧
    ¬ (evaluator.perform call).2.environment.isKnown name := by
  by_cases hevaluate : call = .evaluate
  · subst hevaluate
    have hanswers := answersOnce_evaluate evaluator
    refine ⟨?_, ?_⟩
    · rintro ⟨answer, hanswer⟩
      exact hunknown (hanswers.known name (value_mem_of_mem_exchanges hanswer))
    · show ¬ evaluator.evaluate.evaluator.environment.isKnown name
      rwa [Environment.isKnown_eq_of_names_eq hanswers.names]
  · refine ⟨not_asks_perform hevaluate, ?_⟩
    by_cases hsets : (evaluator.perform call).1.Sets name
    · obtain ⟨value, hcall⟩ := hsets
      rw [call_perform] at hcall
      subst hcall
      -- Setting a name that is not known does nothing.
      show ¬ (evaluator.environment.bind name value).isKnown name
      rwa [Environment.bind, if_neg hunknown]
    · rwa [Environment.isKnown, NameMap.contains, find?_perform hevaluate hunbinds hsets]

/-- What has been set or answered is bound. -/
theorem value?_of_provides {value : Float}
    (h : (evaluator.perform call).1.Provides name value) :
    (evaluator.perform call).2.value? name = some value := by
  rcases h with ⟨hcall, hresponse⟩ | hanswer
  · rw [call_perform] at hcall
    subst hcall
    exact value?_perform_setVariable value (Response.bound.inj hresponse)
  · by_cases hevaluate : call = .evaluate
    · subst hevaluate
      have hanswers := answersOnce_evaluate evaluator
      have hunbound := hanswers.unbound name (value_mem_of_mem_exchanges hanswer)
      exact (hanswers.answered name value hunbound).2 hanswer
    · rw [exchanges_perform hevaluate] at hanswer
      cases hanswer

/-- A call answers for a variable once at most. -/
theorem length_answers_perform (evaluator : Evaluator ρ) (call : Call) (name : String) :
    ((evaluator.perform call).1.answers name).length ≤ 1 := by
  by_cases hevaluate : call = .evaluate
  · subst hevaluate
    exact (answersOnce_evaluate evaluator).once name
  · rw [Event.answers, exchanges_perform hevaluate]
    exact Nat.zero_le 1

/-! ## Calls one after the other -/

/-- A part of a history is the history of a part of the calls. -/
theorem exists_history_of_append {calls : List Call} {first second : List Event}
    (h : first ++ second = evaluator.history calls) :
    ∃ before rest, first = evaluator.history before ∧
      second = (evaluator.after before).history rest := by
  induction first generalizing evaluator calls with
  | nil => exact ⟨[], calls, rfl, h⟩
  | cons event first ih =>
      rcases calls with _ | ⟨call, calls⟩
      · cases h
      · obtain ⟨hevent, hrest⟩ := List.cons.inj h
        obtain ⟨before, rest, rfl, rfl⟩ := ih hrest
        exact ⟨call :: before, rest, by rw [hevent]; rfl, rfl⟩

theorem exists_history_of_infix {calls : List Call} {segment : List Event}
    (h : segment <:+: evaluator.history calls) :
    ∃ before rest, segment = (evaluator.after before).history rest := by
  obtain ⟨first, last, h⟩ := h
  rw [List.append_assoc] at h
  obtain ⟨before, rest, rfl, hrest⟩ := exists_history_of_append h
  obtain ⟨within, rest', hsegment, -⟩ := exists_history_of_append hrest
  exact ⟨before, within, hsegment⟩

/-- A bound name is not asked for until it is unbound. -/
theorem not_asks_of_value? {calls : List Call} {value : Float}
    (hvalue : evaluator.value? name = some value)
    (hunbinds : ∀ event ∈ evaluator.history calls, ¬ event.Unbinds name) :
    ∀ event ∈ evaluator.history calls, ¬ event.Asks name := by
  induction calls generalizing evaluator value with
  | nil => exact List.forall_mem_nil _
  | cons call rest ih =>
      rw [history, List.forall_mem_cons] at hunbinds ⊢
      obtain ⟨hasks, ⟨value', hvalue'⟩, -⟩ := value?_perform hvalue hunbinds.1
      exact ⟨hasks, ih hvalue' hunbinds.2⟩

/-- A bound name keeps its value until it is set or unbound. -/
theorem value?_after {calls : List Call} {value : Float}
    (hvalue : evaluator.value? name = some value)
    (hkeeps : ∀ event ∈ evaluator.history calls, ¬ event.Unbinds name ∧ ¬ event.Sets name) :
    (evaluator.after calls).value? name = some value := by
  induction calls generalizing evaluator with
  | nil => exact hvalue
  | cons call rest ih =>
      rw [history, List.forall_mem_cons] at hkeeps
      obtain ⟨⟨hunbinds, hsets⟩, hrest⟩ := hkeeps
      exact ih ((value?_perform hvalue hunbinds).2.2 hsets) hrest

/-- An unknown name is not asked for until a call makes it known and unbound. -/
theorem not_asks_of_not_isKnown {calls : List Call}
    (hunknown : ¬ evaluator.environment.isKnown name)
    (hunbinds : ∀ event ∈ evaluator.history calls, ¬ event.Unbinds name) :
    ∀ event ∈ evaluator.history calls, ¬ event.Asks name := by
  induction calls generalizing evaluator with
  | nil => exact List.forall_mem_nil _
  | cons call rest ih =>
      rw [history, List.forall_mem_cons] at hunbinds ⊢
      obtain ⟨hasks, hunknown'⟩ := not_isKnown_perform hunknown hunbinds.1
      exact ⟨hasks, ih hunknown' hunbinds.2⟩

theorem answers_eq_nil_of_not_asks {event : Event} (h : ¬ event.Asks name) :
    event.answers name = [] := by
  rw [List.eq_nil_iff_forall_not_mem]
  exact fun value hvalue => h ⟨_, mem_answersIn.1 hvalue⟩

/-- Until it is unbound a name is answered once at most. -/
theorem length_flatMap_answers {calls : List Call}
    (hunbinds : ∀ event ∈ evaluator.history calls, ¬ event.Unbinds name) :
    ((evaluator.history calls).flatMap (·.answers name)).length ≤ 1 := by
  induction calls generalizing evaluator with
  | nil => exact Nat.zero_le 1
  | cons call rest ih =>
      rw [history, List.forall_mem_cons] at hunbinds
      rw [history, List.flatMap_cons, List.length_append]
      have hfirst := length_answers_perform evaluator call name
      rcases hanswers : (evaluator.perform call).1.answers name with _ | ⟨value, more⟩
      · simpa using ih hunbinds.2
      · -- The answer has bound the name, so the rest of the calls do not ask for it.
        have hvalue : (evaluator.perform call).2.value? name = some value := by
          refine value?_of_provides (.inr (mem_answersIn.1 ?_))
          show value ∈ (evaluator.perform call).1.answers name
          rw [hanswers]
          exact List.mem_cons_self
        have hrest : ((evaluator.perform call).2.history rest).flatMap (·.answers name) = [] := by
          rw [List.flatMap_eq_nil_iff]
          exact fun event hevent =>
            answers_eq_nil_of_not_asks (not_asks_of_value? hvalue hunbinds.2 event hevent)
        rw [hrest, ← hanswers]
        exact hfirst

/-! ## From the start -/

theorem not_unbinds_of_isConstant (h : Environment.isConstant name) (event : Event) :
    ¬ event.Unbinds name := by
  rintro (⟨-, hmem⟩ | ⟨-, -, hconstant⟩)
  · have hnone : ∀ name ∈ Environment.conventional, ¬ Environment.isConstant name := by decide
    exact hnone name hmem h
  · exact hconstant h

/-- A name that has never been made unbound is not asked for: it is a constant, or unknown. -/
theorem not_asks_of_never_unbound {resolver : ρ} {calls : List Call}
    (hunbinds : ∀ event ∈ history (fresh resolver) calls, ¬ event.Unbinds name) :
    ∀ event ∈ history (fresh resolver) calls, ¬ event.Asks name := by
  by_cases hknown : Environment.initial.isKnown name
  · have hbound : ∀ name ∈ ["e", "pi"], Environment.initial.isBound name := by decide +kernel
    obtain ⟨value, hvalue⟩ : ∃ value, (fresh resolver).value? name = some value :=
      Option.isSome_iff_exists.1 (hbound name (Environment.isKnown_initial_iff.1 hknown))
    exact not_asks_of_value? hvalue hunbinds
  · exact not_asks_of_not_isKnown hknown hunbinds

end Evaluator

/-- In every run, between two calls that make a name unbound, it is answered once at most, and not
asked for once it has been answered or set.  A constant is never asked for, and neither is a name
before it is made unbound for the first time.  The value that a name was given by an answer or by
setting it is read until it is set again or made unbound. -/
theorem Evaluator.history_answers {ρ : Type} [Resolver ρ] (resolver : ρ) (calls : List Call)
    (name : String) :
    (∀ segment, segment <:+: history (fresh resolver) calls →
      (∀ event ∈ segment, ¬ event.Unbinds name) →
      (segment.flatMap (·.answers name)).length ≤ 1) ∧
    (∀ first segment value, first :: segment <:+: history (fresh resolver) calls →
      first.Provides name value → (∀ event ∈ segment, ¬ event.Unbinds name) →
      ∀ event ∈ segment, ¬ event.Asks name) ∧
    (Environment.isConstant name → ∀ event ∈ history (fresh resolver) calls, ¬ event.Asks name) ∧
    (∀ segment, segment <+: history (fresh resolver) calls →
      (∀ event ∈ segment, ¬ event.Unbinds name) → ∀ event ∈ segment, ¬ event.Asks name) ∧
    (∀ first segment reading value, first :: (segment ++ [reading]) <:+: history (fresh resolver) calls →
      first.Provides name value →
      (∀ event ∈ segment, ¬ event.Unbinds name ∧ ¬ event.Sets name) →
      reading.call = .value name → reading.response = .value (some value)) := by
  refine ⟨?_, ?_, ?_, ?_, ?_⟩
  · intro segment hsegment hunbinds
    obtain ⟨before, within, rfl⟩ := exists_history_of_infix hsegment
    exact length_flatMap_answers hunbinds
  · intro first segment value hsegment hprovides hunbinds
    obtain ⟨before, within, heq⟩ := exists_history_of_infix hsegment
    rcases within with _ | ⟨call, within⟩
    · cases heq
    · obtain ⟨rfl, rfl⟩ := List.cons.inj heq
      exact not_asks_of_value? (value?_of_provides hprovides) hunbinds
  · intro hconstant
    exact not_asks_of_never_unbound fun event _ => not_unbinds_of_isConstant hconstant event
  · rintro segment ⟨rest, hsegment⟩ hunbinds
    obtain ⟨before, more, rfl, -⟩ := exists_history_of_append hsegment
    exact not_asks_of_never_unbound hunbinds
  · intro first segment reading value hsegment hprovides hkeeps hcall
    obtain ⟨before, within, heq⟩ := exists_history_of_infix hsegment
    rcases within with _ | ⟨call, within⟩
    · cases heq
    · obtain ⟨rfl, hrest⟩ := List.cons.inj heq
      obtain ⟨between, last, rfl, hlast⟩ := exists_history_of_append hrest
      rcases last with _ | ⟨read, last⟩
      · cases hlast
      · obtain ⟨rfl, -⟩ := List.cons.inj hlast
        rw [call_perform] at hcall
        rw [hcall]
        exact congrArg Response.value (value?_after (value?_of_provides hprovides) hkeeps)

/-- The answer is read although two evaluations have failed since. -/
theorem Evaluator.history_answers_of_refusal :
    ∀ reading ∈ (history (fresh ({ values := [.ok 1, .error "why"] } : Script))
      [.setExpression "x+y", .evaluate, .evaluate, .value "x"]).getLast?,
      reading.response = .value (some 1) := by
  intro reading hreading
  let evaluator : Evaluator Script := fresh { values := [.ok 1, .error "why"] }
  let calls : List Call := [.setExpression "x+y", .evaluate, .evaluate, .value "x"]
  obtain ⟨-, -, -, -, hread⟩ := history_answers evaluator.resolver calls "x"
  have hasked : (evaluator.setExpression "x+y").evaluate.asked = [.value "x", .value "y"] := by
    decide +kernel
  have hprovides : ((evaluator.setExpression "x+y").perform .evaluate).1.Provides "x" 1 := by
    refine .inr ?_
    show _ ∈ exchanges _ (evaluator.setExpression "x+y").evaluate.asked
    rw [hasked]
    exact List.mem_cons_self
  obtain rfl := Option.some.inj hreading
  refine hread _ [_] _ 1 ⟨[_], [], rfl⟩ hprovides (List.forall_mem_singleton.2 ⟨?_, ?_⟩) rfl
  · rintro (⟨⟨text, hcall⟩, -⟩ | ⟨hcall, -⟩)
    · cases hcall
    · cases hcall
  · rintro ⟨value, hcall⟩
    cases hcall

end Reckoner
