/-
  Reckoner.Proofs.Evaluation.Influence

  The variables that an evaluation depends on (`Evaluator.evaluate_of_mentioned`).

  All known names matter to how a text is read, but the value of a name matters only if the name is
  among the tokens of the expression, or of a body that comes to be evaluated with its argument in
  place of the placeholder.  Two evaluations that find the same values there go through the same
  moments: they ask for the same values and functions, are given the same answers, and end in the
  same way.  What the environments have for other names is neither looked at nor changed, not even
  for a name that is the placeholder of a body.
-/
import Reckoner.Proofs.Evaluation.Moments

namespace Reckoner

open Evaluation

/-! ## Giving a name a value -/

namespace Environment

variable {environment : Environment} {name other : String}

theorem names_bind (environment : Environment) (name : String) (value : Float) :
    (environment.bind name value).names = environment.names := by
  rw [bind]
  split
  · next hknown => exact names_set hknown _
  · rfl

theorem value?_bind_of_ne (h : other ≠ name) (value : Float) :
    (environment.bind name value).value? other = environment.value? other := by
  rw [bind]
  split
  · rw [value?_set, if_neg h]
  · rfl

end Environment

/-! ## Names among the tokens -/

section Names

variable {ρ : Type}

/-- The names of the variables among the tokens. -/
def Start.variables (start : Start ρ) : List String :=
  (start.tokens.body.filter (·.kind = .variableName)).map Token.text

variable [Resolver ρ]

/-- The names of the variables in the expression, and in the bodies that come to be evaluated with
their arguments in place of the placeholders. -/
def Evaluator.mentioned (evaluator : Evaluator ρ) : List String :=
  evaluator.begun.flatMap Start.variables

/-- Every name that is resolved is mentioned. -/
theorem Evaluator.mem_mentioned {evaluator : Evaluator ρ} {start : Start ρ} {moment : Moment ρ}
    (hstart : start ∈ evaluator.begun) (hmoment : moment ∈ start.resolutions) :
    moment.name ∈ evaluator.mentioned := by
  obtain ⟨token, htoken, hkind, hname⟩ := Start.exists_of_mem_resolutions hmoment
  refine List.mem_flatMap.2 ⟨start, hstart, ?_⟩
  rw [← hname]
  exact List.mem_map_of_mem (List.mem_filter.2 ⟨htoken, decide_eq_true hkind⟩)

end Names

/-! ## States that differ in the values of some names -/

section Alike

variable {ρ α β : Type} {shared : String → Prop} {state other : EvalState ρ}

/-- The states are the same but for the values of names that are not shared. -/
structure Alike (shared : String → Prop) (state other : EvalState ρ) : Prop where
  names : other.environment.names = state.environment.names
  resolver : other.resolver = state.resolver
  asked : other.asked = state.asked
  values : ∀ name, shared name → other.environment.value? name = state.environment.value? name

theorem Alike.refl (state : EvalState ρ) : Alike shared state state :=
  ⟨rfl, rfl, rfl, fun _ _ => rfl⟩

/-- The entries of names that are not shared are the same. -/
def Spares (shared : String → Prop) (before after : EvalState ρ) : Prop :=
  ∀ name, ¬ shared name →
    after.environment.entries.find? name = before.environment.entries.find? name

/-- The computation comes to the same in all states that are like the given one, leaves them
alike, and spares the names that are not shared. -/
def Uniform (shared : String → Prop) (computation : Evaluation ρ α) (state : EvalState ρ) : Prop :=
  ∀ other, Alike shared state other →
    (computation other).1 = (computation state).1 ∧
      Alike shared (computation state).2 (computation other).2 ∧
      Spares shared other (computation other).2

/-- A computation that has the same result in all states and changes none. -/
theorem uniform_of_same {computation : Evaluation ρ α} {result : Except EvalError α}
    (h : ∀ state, computation state = (result, state)) (state : EvalState ρ) :
    Uniform shared computation state := by
  intro other halike
  rw [h, h]
  exact ⟨rfl, halike, fun _ _ => rfl⟩

theorem Uniform.bind {first : Evaluation ρ α} {next : α → Evaluation ρ β}
    (hfirst : Uniform shared first state)
    (hnext : ∀ value middle, first state = (.ok value, middle) →
      Uniform shared (next value) middle) :
    Uniform shared (first >>= next) state := by
  intro other halike
  obtain ⟨hresult, halike', hspares⟩ := hfirst other halike
  rw [bind_apply, bind_apply]
  -- Both have the same result, so both end with the first computation or both go on.
  rcases houtcome : first state with ⟨error | value, middle⟩
  all_goals
    rcases houtcome' : first other with ⟨result, middle'⟩
    rw [houtcome, houtcome'] at hresult halike'
    rw [houtcome'] at hspares
    obtain rfl := hresult
  · exact ⟨rfl, halike', hspares⟩
  · obtain ⟨hresult, halike'', hspares'⟩ := hnext value middle houtcome middle' halike'
    exact ⟨hresult, halike'', fun name hname => (hspares' name hname).trans (hspares name hname)⟩

/-- How a text is read depends on the known names, but not on their values. -/
theorem uniform_readText (text : String) (extend : KnownNames → KnownNames)
    (state : EvalState ρ) : Uniform shared (readText text extend) state := by
  intro other halike
  rw [readText_apply, readText_apply, Environment.knownNames_eq_of_names_eq halike.names]
  cases tokenize (extend state.environment.knownNames) text with
  | error error => exact ⟨rfl, halike, fun _ _ => rfl⟩
  | ok tokens => exact ⟨rfl, halike, fun _ _ => rfl⟩

variable [Resolver ρ]

theorem uniform_askFunction (name : String) (state : EvalState ρ) :
    Uniform shared (askFunction name) state := by
  intro other halike
  have hasked : other.asked ++ [Request.function name] = state.asked ++ [.function name] :=
    congrArg (· ++ [Request.function name]) halike.asked
  rcases hanswer : Resolver.function state.resolver name with ⟨reason | function, resolver⟩
  · rw [askFunction_of_error hanswer, askFunction_of_error (by rwa [halike.resolver])]
    exact ⟨rfl, ⟨halike.names, rfl, hasked, halike.values⟩, fun _ _ => rfl⟩
  · rw [askFunction_of_ok hanswer, askFunction_of_ok (by rwa [halike.resolver])]
    exact ⟨rfl, ⟨halike.names, rfl, hasked, halike.values⟩, fun _ _ => rfl⟩

/-- A name that is shared is resolved in the same way, and no other is bound by it. -/
theorem uniform_resolve {name : String} (hshared : shared name) (state : EvalState ρ) :
    Uniform shared (resolve name) state := by
  intro other halike
  have hvalue := halike.values name hshared
  have hknown := Environment.isKnown_eq_of_names_eq halike.names name
  rcases resolve_cases name state with ⟨value, hbound, hresolve⟩ | ⟨hunknown, hresolve⟩ |
    ⟨answer, resolver, hisKnown, hunbound, hanswer, hresolve⟩
  -- What is bound, unknown or unbound in the one state is so in the other.
  · rw [hresolve, resolve_of_value? (hvalue.trans hbound)]
    exact ⟨rfl, halike, fun _ _ => rfl⟩
  · rw [hresolve, resolve_of_not_isKnown (by rwa [hknown])]
    exact ⟨rfl, halike, fun _ _ => rfl⟩
  · have hasked : other.asked ++ [Request.value name] = state.asked ++ [.value name] :=
      congrArg (· ++ [Request.value name]) halike.asked
    rw [hresolve, resolve_of_value?_eq_none (by rwa [hknown]) (hvalue.trans hunbound),
      halike.resolver, hanswer]
    rcases answer with reason | value
    · exact ⟨rfl, ⟨halike.names, rfl, hasked, halike.values⟩, fun _ _ => rfl⟩
    · -- The name is bound in both, to the same answer.
      refine ⟨rfl, ⟨?_, rfl, hasked, fun name' hshared' => ?_⟩, fun name' hname' => ?_⟩
      · rw [Environment.names_set hisKnown, Environment.names_set (by rwa [hknown])]
        exact halike.names
      · rw [Environment.value?_set, Environment.value?_set, halike.values name' hshared']
      · have hne : name' ≠ name := by
          rintro rfl
          exact hname' hshared
        exact NameMap.find?_insert_of_ne _ hne _

theorem closedAt_uniform :
    ClosedAt fun {α} (computation : Evaluation ρ α) state => Uniform shared computation state where
  pure := fun _ => uniform_of_same fun _ => rfl
  throw := fun _ state _ => uniform_of_same (fun _ => rfl) state
  bind := Uniform.bind
  askFunction := uniform_askFunction
  readText := uniform_readText

end Alike

/-! ## Evaluations -/

namespace Evaluator

variable {ρ : Type} [Resolver ρ]

/-- The evaluation comes to the same with all environments that have the same names and the same
values for those that are mentioned. -/
theorem uniform_evaluateText (evaluator : Evaluator ρ) :
    Uniform (· ∈ evaluator.mentioned) (evaluateText evaluator.expression)
      { environment := evaluator.environment, resolver := evaluator.resolver } :=
  closedAt_uniform.evaluateText fun _ hstart _ hmoment =>
    uniform_resolve (mem_mentioned hstart hmoment) _

/-- An evaluation depends on the values of the names that are mentioned, and on no others.  With
another environment that has the same names and agrees on these, it has the same result and makes
the same requests; afterwards the environments still agree on these names, and all others have the
entries that they had.  So giving another name a value changes neither result nor requests. -/
theorem evaluate_of_mentioned (evaluator : Evaluator ρ) :
    (∀ other : Evaluator ρ, other.expression = evaluator.expression →
      other.environment.names = evaluator.environment.names →
      other.resolver = evaluator.resolver →
      (∀ name ∈ evaluator.mentioned, other.value? name = evaluator.value? name) →
      other.evaluate.result = evaluator.evaluate.result ∧
      other.evaluate.asked = evaluator.evaluate.asked ∧
      other.evaluate.evaluator.resolver = evaluator.evaluate.evaluator.resolver ∧
      (∀ name ∈ evaluator.mentioned,
        other.evaluate.evaluator.value? name = evaluator.evaluate.evaluator.value? name) ∧
      ∀ name ∉ evaluator.mentioned,
        other.evaluate.evaluator.environment.entries.find? name
          = other.environment.entries.find? name ∧
        evaluator.evaluate.evaluator.environment.entries.find? name
          = evaluator.environment.entries.find? name) ∧
    ∀ name ∉ evaluator.mentioned, ∀ value : Float,
      (evaluator.setVariable name value).2.evaluate.result = evaluator.evaluate.result ∧
      (evaluator.setVariable name value).2.evaluate.asked = evaluator.evaluate.asked := by
  have huniform (environment : Environment)
      (hnames : environment.names = evaluator.environment.names)
      (hvalues : ∀ name ∈ evaluator.mentioned,
        environment.value? name = evaluator.environment.value? name) :=
    evaluator.uniform_evaluateText { environment, resolver := evaluator.resolver }
      ⟨hnames, rfl, rfl, hvalues⟩
  constructor
  · rintro ⟨_, environment, _⟩ rfl hnames rfl hvalues
    obtain ⟨-, -, hspares⟩ := huniform evaluator.environment rfl fun _ _ => rfl
    obtain ⟨hresult, halike, hspares'⟩ := huniform environment hnames hvalues
    exact ⟨hresult, halike.asked, halike.resolver, halike.values,
      fun name hname => ⟨hspares' name hname, hspares name hname⟩⟩
  · intro name hname value
    have hvalues : ∀ other ∈ evaluator.mentioned,
        (evaluator.environment.bind name value).value? other
          = evaluator.environment.value? other := by
      intro other hmentioned
      refine Environment.value?_bind_of_ne ?_ value
      rintro rfl
      exact hname hmentioned
    obtain ⟨hresult, halike, -⟩ := huniform _ (Environment.names_bind ..) hvalues
    exact ⟨hresult, halike.asked⟩

/-- The placeholder of the function is also the name of a variable.  Where it stands for the
argument, the value of the variable does not matter, and the variable keeps it. -/
theorem evaluate_of_mentioned_placeholder :
    (evaluate { expression := "f(2)+y",
                environment := Environment.initial.resetConventional.bind "x" 5,
                resolver := ({ «variables» := .ofList [("y", 3)],
                               functions := .ofList [("f", ⟨"x", "x+y"⟩)] } : Tables) }).result
      = (evaluate { expression := "f(2)+y",
                    environment := .resetConventional .initial,
                    resolver := ({ «variables» := .ofList [("y", 3)],
                                   functions := .ofList [("f", ⟨"x", "x+y"⟩)] } :
                                 Tables) }).result ∧
    (evaluate { expression := "f(2)+y",
                environment := Environment.initial.resetConventional.bind "x" 5,
                resolver := ({ «variables» := .ofList [("y", 3)],
                               functions := .ofList [("f", ⟨"x", "x+y"⟩)] } : Tables)
              }).evaluator.value? "x" = some 5 := by
  let evaluator : Evaluator Tables :=
    { expression := "f(2)+y", environment := .resetConventional .initial,
      resolver := { «variables» := .ofList [("y", 3)],
                    functions := .ofList [("f", ⟨"x", "x+y"⟩)] } }
  have hmentioned : evaluator.mentioned = ["y", "y"] := by decide +kernel
  have hx : "x" ∉ evaluator.mentioned := by
    rw [hmentioned]
    decide
  obtain ⟨hother, hgiven⟩ := evaluator.evaluate_of_mentioned
  obtain ⟨hresult, -⟩ := hgiven "x" hx 5
  have hvalues : ∀ name ∈ evaluator.mentioned,
      (evaluator.setVariable "x" 5).2.value? name = evaluator.value? name := by
    rw [hmentioned]
    decide +kernel
  obtain ⟨-, -, -, -, hkept⟩ :=
    hother (evaluator.setVariable "x" 5).2 rfl (by decide +kernel) rfl hvalues
  exact ⟨hresult, (congrArg Option.join (hkept "x" hx).1).trans (by decide +kernel)⟩

end Evaluator

end Reckoner
