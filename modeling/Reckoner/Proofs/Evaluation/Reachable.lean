/-
  Reckoner.Proofs.Evaluation.Reachable

  The environments that can come about, and what is true of all of them.

  An environment starts with the constants and is changed by four operations only.  None of them
  makes a name known that is no identifier (`Reachable.isIdentifier_of_isKnown`).
-/
import Reckoner.Evaluator
import Reckoner.Proofs.Evaluation.Resolve

namespace Reckoner

namespace Environment

/-- The environments that the operations make of the constants.  Names may be resolved by any
resolver, in any of its states. -/
inductive Reachable : Environment → Prop
  | initial : Reachable .initial
  | declare {environment declared : Environment} {name : String} (h : Reachable environment)
      (hdeclared : environment.declare name = .ok declared) : Reachable declared
  | resetConventional {environment : Environment} (h : Reachable environment) :
      Reachable environment.resetConventional
  | bind {environment : Environment} (h : Reachable environment) (name : String) (value : Float) :
      Reachable (environment.bind name value)
  | resolve {ρ : Type} [Resolver ρ] {state : EvalState ρ} (h : Reachable state.environment)
      (name : String) : Reachable (Evaluation.resolve name state).2.environment

theorem isKnown_set (environment : Environment) (name other : String) (value : Option Float) :
    (environment.set name value).isKnown other = (other = name || environment.isKnown other) := by
  rw [isKnown, isKnown, set, NameMap.contains, NameMap.contains, NameMap.find?_insert]
  by_cases hname : other = name <;> simp [hname]

theorem isKnown_of_isBound {environment : Environment} {name : String}
    (h : environment.isBound name) : environment.isKnown name := by
  rw [isKnown, NameMap.contains]
  rw [isBound, value?] at h
  cases hentry : environment.entries.find? name with
  | none => simp [hentry] at h
  | some entry => rfl

/-- Every name that is known is looked for. -/
theorem length_le_longestName {environment : Environment} {name : String}
    (h : environment.isKnown name) : name.length ≤ environment.longestName := by
  have hmem : name ∈ environment.names := by rwa [names, NameMap.mem_names_iff]
  exact List.le_max?_getD_of_mem (List.mem_map_of_mem hmem)

/-- At first only the constants are known. -/
theorem isKnown_initial_iff {name : String} : initial.isKnown name ↔ name ∈ ["e", "pi"] := by
  have hnames : initial.names = ["e", "pi"] := by decide +kernel
  rw [isKnown, NameMap.contains, ← NameMap.mem_names_iff, ← hnames, names]

namespace Reachable

variable {environment : Environment}

/-- Resolving a name leaves the known names as they are. -/
theorem isKnown_resolve {ρ : Type} [Resolver ρ] (name other : String) (state : EvalState ρ) :
    (Evaluation.resolve name state).2.environment.isKnown other
      = state.environment.isKnown other := by
  rcases Evaluation.resolve_cases name state with ⟨value, -, hresolve⟩ | ⟨-, hresolve⟩ |
    ⟨reason | value, resolver, hknown, -, -, hresolve⟩
  · rw [hresolve]
  · rw [hresolve]
  · rw [hresolve]
  · rw [hresolve]
    exact isKnown_eq_of_names_eq (names_set hknown _) other

/-- Only identifiers are ever known. -/
theorem isIdentifier_of_isKnown (h : Reachable environment) {name : String}
    (hknown : environment.isKnown name) : isIdentifier name := by
  induction h with
  | initial =>
      have hidentifiers : ∀ name ∈ ["e", "pi"], isIdentifier name := by decide +kernel
      exact hidentifiers name (isKnown_initial_iff.1 hknown)
  | @declare environment declared new _ hdeclared ih =>
      rw [Environment.declare] at hdeclared
      by_cases hnew : isIdentifier new
      · rw [if_pos hnew] at hdeclared
        rw [← Except.ok.inj hdeclared] at hknown
        split at hknown
        · exact ih hknown
        · rw [isKnown_set, Bool.or_eq_true, decide_eq_true_eq] at hknown
          rcases hknown with rfl | hknown
          · exact hnew
          · exact ih hknown
      · rw [if_neg hnew] at hdeclared
        cases hdeclared
  | resetConventional _ ih =>
      simp only [Environment.resetConventional, conventional, List.foldl_cons, List.foldl_nil,
        isKnown_set, Bool.or_eq_true, decide_eq_true_eq] at hknown
      rcases hknown with rfl | rfl | rfl | hknown
      · decide +kernel
      · decide +kernel
      · decide +kernel
      · exact ih hknown
  | @bind environment _ bound value ih =>
      rw [Environment.bind] at hknown
      split at hknown
      · next hbound =>
        rw [isKnown_set, Bool.or_eq_true, decide_eq_true_eq] at hknown
        rcases hknown with rfl | hknown
        · exact ih hbound
        · exact ih hknown
      · exact ih hknown
  | resolve _ resolved ih =>
      rw [isKnown_resolve] at hknown
      exact ih hknown

end Reachable

end Environment

end Reckoner
