/-
  Reckoner.Proofs.Evaluation.Refusals

  An evaluation reports a refusal if and only if a request was refused
  (`Evaluator.evaluate_unanswered`).

  A refusal ends an evaluation wherever in the nested bodies it comes up: it is not tried again, not
  passed over, and no other error takes its place.  So there is one at most, it is what the resolver
  has said last, and its reason is reported as it was given.
-/
import Reckoner.Proofs.Evaluation.Frame

namespace Reckoner

/-! ## Refusals -/

/-- Whose value or body was refused and for what reason, if it was. -/
def Exchange.refusal? : Exchange → Option (String × String)
  | .value name (.error reason) | .function name (.error reason) => some (name, reason)
  | .value _ (.ok _) | .function _ (.ok _) => none

theorem Exchange.refusal?_eq_some_iff {exchange : Exchange} {name reason : String} :
    exchange.refusal? = some (name, reason) ↔
      exchange = .value name (.error reason) ∨ exchange = .function name (.error reason) := by
  rcases exchange with ⟨asked, reason' | answer⟩ | ⟨asked, reason' | answer⟩ <;> simp [refusal?]

/-- Whose value or body was refused and for what reason, if the error is that. -/
def EvalError.refusal? : EvalError → Option (String × String)
  | .unanswered name reason => some (name, reason)
  | _ => none

theorem EvalError.refusal?_eq_some_iff {error : EvalError} {name reason : String} :
    error.refusal? = some (name, reason) ↔ error = .unanswered name reason := by
  cases error <;> simp [refusal?]

/-- The refusal that a result reports, if it reports one. -/
def refusalOf? {α : Type} : Except EvalError α → Option (String × String)
  | .ok _ => none
  | .error error => error.refusal?

theorem refusalOf?_eq_some_iff {α : Type} {result : Except EvalError α} {name reason : String} :
    refusalOf? result = some (name, reason) ↔ result = .error (.unanswered name reason) := by
  cases result with
  | ok value => exact iff_of_false nofun nofun
  | error error => rw [refusalOf?, EvalError.refusal?_eq_some_iff, Except.error.injEq]

/-- The last exchange is the refusal, and it is the only one.  If a value was refused, the name has
none in the environment. -/
def EndsInRefusal (exchanges : List Exchange) (environment : Environment)
    (refusal : String × String) : Prop :=
  ∃ earlier last, exchanges = earlier ++ [last] ∧
    (∀ exchange ∈ earlier, exchange.refusal? = none) ∧ last.refusal? = some refusal ∧
    (last = .value refusal.1 (.error refusal.2) → environment.value? refusal.1 = none)

/-- What a result says about refusals is so: there is the one that it reports, or none. -/
def Reports {α : Type} (exchanges : List Exchange) (environment : Environment)
    (result : Except EvalError α) : Prop :=
  match refusalOf? result with
  | some refusal => EndsInRefusal exchanges environment refusal
  | none => ∀ exchange ∈ exchanges, exchange.refusal? = none

theorem reports_ok_iff {α : Type} {exchanges : List Exchange} {environment : Environment}
    {value : α} : Reports exchanges environment (.ok value : Except EvalError α) ↔
      ∀ exchange ∈ exchanges, exchange.refusal? = none :=
  Iff.rfl

/-- Exchanges without a refusal may come first. -/
theorem Reports.append {α : Type} {first second : List Exchange} {environment : Environment}
    {result : Except EvalError α} (hfirst : ∀ exchange ∈ first, exchange.refusal? = none)
    (hsecond : Reports second environment result) :
    Reports (first ++ second) environment result := by
  rw [Reports] at hsecond ⊢
  cases hresult : refusalOf? result with
  | none =>
      rw [hresult] at hsecond
      exact List.forall_mem_append.2 ⟨hfirst, hsecond⟩
  | some refusal =>
      rw [hresult] at hsecond
      obtain ⟨earlier, last, rfl, hearlier, hlast⟩ := hsecond
      exact ⟨first ++ earlier, last, (List.append_assoc ..).symm,
        List.forall_mem_append.2 ⟨hfirst, hearlier⟩, hlast⟩

/-! ## Every evaluation reports its refusals -/

namespace Evaluation

variable {ρ α β : Type} [Resolver ρ]

/-- The computation makes requests, and its result reports what was refused. -/
def ReportsRefusals (computation : Evaluation ρ α) : Prop :=
  ∀ state, ∃ requests, Extends requests state (computation state).2 ∧
    Reports (exchanges state.resolver requests) (computation state).2.environment
      (computation state).1

/-- What makes no requests has nothing to report. -/
theorem reportsRefusals_of_unchanged {computation : Evaluation ρ α}
    (h : ∀ state, (computation state).2 = state ∧ refusalOf? (computation state).1 = none) :
    ReportsRefusals computation := by
  intro state
  obtain ⟨hstate, hresult⟩ := h state
  refine ⟨[], ?_, ?_⟩
  · rw [hstate]
    exact .refl state
  · rw [Reports, hresult]
    exact List.forall_mem_nil _

theorem ReportsRefusals.bind {first : Evaluation ρ α} {next : α → Evaluation ρ β}
    (hfirst : ReportsRefusals first) (hnext : ∀ value, ReportsRefusals (next value)) :
    ReportsRefusals (first >>= next) := by
  intro state
  obtain ⟨requests, hextends, hreports⟩ := hfirst state
  rw [bind_apply]
  rcases houtcome : first state with ⟨error | value, middle⟩
  · -- The first ends the whole, so its last exchange is the last of all.
    rw [houtcome] at hextends hreports
    exact ⟨requests, hextends, hreports⟩
  · rw [houtcome] at hextends hreports
    obtain ⟨requests', hextends', hreports'⟩ := hnext value middle
    refine ⟨requests ++ requests', hextends.trans hextends', ?_⟩
    rw [exchanges_append, ← hextends.resolver]
    exact hreports'.append (reports_ok_iff.1 hreports)

theorem reportsRefusals_resolve (name : String) :
    ReportsRefusals (resolve name : Evaluation ρ Float) := by
  intro state
  rcases resolve_cases name state with ⟨value, -, hresolve⟩ | ⟨-, hresolve⟩ |
    ⟨reason | value, resolver, hknown, hunbound, hanswer, hresolve⟩
  · rw [hresolve]
    exact ⟨[], .refl state, List.forall_mem_nil _⟩
  · rw [hresolve]
    exact ⟨[], .refl state, List.forall_mem_nil _⟩
  · rw [hresolve]
    refine ⟨_, extends_of_refused hanswer hunbound, ?_⟩
    rw [exchanges_value hanswer]
    exact ⟨[], _, rfl, List.forall_mem_nil _, rfl, fun _ => hunbound⟩
  · rw [hresolve]
    refine ⟨_, extends_of_answered hanswer hknown hunbound, ?_⟩
    rw [exchanges_value hanswer]
    exact List.forall_mem_singleton.2 rfl

theorem reportsRefusals_askFunction (name : String) :
    ReportsRefusals (askFunction name : Evaluation ρ UserFunction) := by
  intro state
  obtain ⟨requests, hextends⟩ := keeps_extended_askFunction name state
  obtain rfl : [.function name] = requests := List.append_cancel_left hextends.asked
  refine ⟨[.function name], hextends, ?_⟩
  rcases hanswer : Resolver.function state.resolver name with ⟨reason | function, resolver⟩
  · rw [askFunction_of_error hanswer, exchanges_function hanswer]
    exact ⟨[], _, rfl, List.forall_mem_nil _, rfl, nofun⟩
  · rw [askFunction_of_ok hanswer, exchanges_function hanswer]
    exact List.forall_mem_singleton.2 rfl

theorem closed_reportsRefusals :
    Closed fun {α} (computation : Evaluation ρ α) => ReportsRefusals computation where
  pure := fun _ => reportsRefusals_of_unchanged fun _ => ⟨rfl, rfl⟩
  throw := by
    intro α error hother
    refine reportsRefusals_of_unchanged fun state => ⟨rfl, ?_⟩
    show error.refusal? = none
    rw [Option.eq_none_iff_forall_ne_some]
    rintro ⟨name, reason⟩ hrefusal
    exact hother name reason (EvalError.refusal?_eq_some_iff.1 hrefusal)
  bind := ReportsRefusals.bind
  resolve := reportsRefusals_resolve
  askFunction := reportsRefusals_askFunction
  readText := by
    intro text extend
    refine reportsRefusals_of_unchanged fun state => ?_
    rw [readText_apply]
    cases tokenize (extend state.environment.knownNames) text <;> exact ⟨rfl, rfl⟩

end Evaluation

/-- What an evaluation makes of its state, and what it reports. -/
theorem Evaluator.reports_evaluate {ρ : Type} [Resolver ρ] (evaluator : Evaluator ρ) :
    Extends evaluator.evaluate.asked
      { environment := evaluator.environment, resolver := evaluator.resolver }
      { environment := evaluator.evaluate.evaluator.environment,
        resolver := evaluator.evaluate.evaluator.resolver, asked := evaluator.evaluate.asked } ∧
    Reports (exchanges evaluator.resolver evaluator.evaluate.asked)
      evaluator.evaluate.evaluator.environment evaluator.evaluate.result := by
  obtain ⟨requests, hextends, hreports⟩ :=
    Evaluation.closed_reportsRefusals.evaluateText evaluator.expression
      { environment := evaluator.environment, resolver := evaluator.resolver }
  obtain rfl : evaluator.evaluate.asked = requests := hextends.asked
  exact ⟨hextends, hreports⟩

theorem Reports.endsInRefusal {α : Type} {exchanges : List Exchange} {environment : Environment}
    {result : Except EvalError α} {name reason : String}
    (h : Reports exchanges environment result) (hresult : result = .error (.unanswered name reason)) :
    EndsInRefusal exchanges environment (name, reason) := by
  rwa [Reports, refusalOf?_eq_some_iff.2 hresult] at h

/-- Where there was a refusal, it is reported. -/
theorem Reports.exists_of_refusal {α : Type} {exchanges : List Exchange}
    {environment : Environment} {result : Except EvalError α} {exchange : Exchange}
    (h : Reports exchanges environment result) (hexchange : exchange ∈ exchanges)
    (hrefused : exchange.refusal? ≠ none) :
    ∃ name reason, result = .error (.unanswered name reason) := by
  rw [Reports] at h
  cases hresult : refusalOf? result with
  | none =>
      rw [hresult] at h
      exact absurd (h exchange hexchange) hrefused
  | some refusal => exact ⟨refusal.1, refusal.2, refusalOf?_eq_some_iff.1 hresult⟩

/-- An evaluation reports a refusal exactly if a request was refused.  Then it is the refusal of the
last request and no other was refused, the name and the reason are those of the request and of the
resolver, a name whose value was refused is unbound as before, and all values given until then are
kept. -/
theorem Evaluator.evaluate_unanswered {ρ : Type} [Resolver ρ] (evaluator : Evaluator ρ) :
    ((∃ name reason, evaluator.evaluate.result = .error (.unanswered name reason)) ↔
      ∃ exchange ∈ exchanges evaluator.resolver evaluator.evaluate.asked,
        exchange.refusal? ≠ none) ∧
    ∀ name reason, evaluator.evaluate.result = .error (.unanswered name reason) →
      ∃ earlier last,
        exchanges evaluator.resolver evaluator.evaluate.asked = earlier ++ [last] ∧
        (∀ exchange ∈ earlier, exchange.refusal? = none) ∧
        (last = .value name (.error reason) ∨ last = .function name (.error reason)) ∧
        (last = .value name (.error reason) →
          evaluator.value? name = none ∧ evaluator.evaluate.evaluator.value? name = none) ∧
        ∀ other value, .value other (.ok value) ∈ earlier →
          evaluator.evaluate.evaluator.value? other = some value := by
  obtain ⟨hextends, hreports⟩ := Evaluator.reports_evaluate evaluator
  refine ⟨⟨?_, ?_⟩, ?_⟩
  · rintro ⟨name, reason, hresult⟩
    obtain ⟨earlier, last, hexchanges, -, hlast, -⟩ := hreports.endsInRefusal hresult
    refine ⟨last, ?_, by rw [hlast]; exact Option.some_ne_none _⟩
    rw [hexchanges]
    exact List.mem_append_right _ List.mem_cons_self
  · rintro ⟨exchange, hexchange, hrefused⟩
    exact hreports.exists_of_refusal hexchange hrefused
  · intro name reason hresult
    obtain ⟨earlier, last, hexchanges, hearlier, hlast, hunbound⟩ := hreports.endsInRefusal hresult
    refine ⟨earlier, last, hexchanges, hearlier, Exchange.refusal?_eq_some_iff.1 hlast, ?_, ?_⟩
    · intro hvalue
      have hmem : .value name (.error reason)
          ∈ exchanges evaluator.resolver evaluator.evaluate.asked := by
        rw [hexchanges, hvalue]
        exact List.mem_append_right _ List.mem_cons_self
      exact ⟨hextends.unbound name (value_mem_of_mem_exchanges hmem), hunbound hvalue⟩
    · intro other value hanswer
      have hmem : .value other (.ok value)
          ∈ exchanges evaluator.resolver evaluator.evaluate.asked := by
        rw [hexchanges]
        exact List.mem_append_left _ hanswer
      have hbefore := hextends.unbound other (value_mem_of_mem_exchanges hmem)
      exact (hextends.answered other value hbefore).2 hmem

/-- The value is refused in a body.  What was given for the expression is kept. -/
theorem Evaluator.evaluate_unanswered_in_body :
    (evaluate { expression := "x+f(2)", environment := .resetConventional .initial,
                resolver := ({ values := [.ok 1, .error "why"],
                               functions := [.ok ⟨"t", "t+y"⟩] } : Script) }).evaluator.value? "x"
      = some 1 ∧
    (evaluate { expression := "x+f(2)", environment := .resetConventional .initial,
                resolver := ({ values := [.ok 1, .error "why"],
                               functions := [.ok ⟨"t", "t+y"⟩] } : Script) }).evaluator.value? "y"
      = none := by
  let evaluator : Evaluator Script :=
    { expression := "x+f(2)", environment := .resetConventional .initial,
      resolver := { values := [.ok 1, .error "why"], functions := [.ok ⟨"t", "t+y"⟩] } }
  obtain ⟨-, hunanswered⟩ := Evaluator.evaluate_unanswered evaluator
  have hresult : evaluator.evaluate.result = .error (.unanswered "y" "why") := by decide +kernel
  obtain ⟨earlier, last, hexchanges, -, -, hunbound, hanswered⟩ := hunanswered "y" "why" hresult
  have hasked : evaluator.evaluate.asked = [.value "x", .function "f", .value "y"] := by
    decide +kernel
  rw [hasked] at hexchanges
  obtain ⟨rfl, hlast⟩ : [.value "x" (.ok 1), .function "f" (.ok ⟨"t", "t+y"⟩)] = earlier ∧
      [.value "y" (.error "why")] = [last] := List.append_inj' hexchanges rfl
  exact ⟨hanswered "x" 1 List.mem_cons_self, (hunbound (List.head_eq_of_cons_eq hlast).symm).2⟩

end Reckoner
