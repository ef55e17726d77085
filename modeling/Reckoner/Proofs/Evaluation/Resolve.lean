/-
  Reckoner.Proofs.Evaluation.Resolve

  What resolving a name and asking for a function come to, one lemma for each outcome, and what
  binding a known name leaves of an environment.  What tables answer.
-/
import Reckoner.Evaluation.Lemmas

namespace Reckoner

/-! ## Environments -/

namespace Environment

/-- Binding a known name leaves the names as they are. -/
theorem names_set {environment : Environment} {name : String} (hknown : environment.isKnown name)
    (value : Option Float) : (environment.set name value).names = environment.names :=
  NameMap.names_insert_of_contains hknown value

/-- What the lexer is told of an environment depends on its names only. -/
theorem knownNames_eq_of_names_eq {environment environment' : Environment}
    (h : environment'.names = environment.names) :
    environment'.knownNames = environment.knownNames := by
  have hknown : environment'.isKnown = environment.isKnown := by
    funext name
    rw [Bool.eq_iff_iff, isKnown, isKnown, NameMap.contains, NameMap.contains,
      ← NameMap.mem_names_iff, ← NameMap.mem_names_iff]
    exact iff_of_eq (congrArg (name ∈ ·) h)
  rw [knownNames, knownNames, hknown, longestName, longestName, h]

theorem isKnown_eq_of_names_eq {environment environment' : Environment}
    (h : environment'.names = environment.names) (name : String) :
    environment'.isKnown name = environment.isKnown name :=
  congrArg (KnownNames.isKnown · name) (knownNames_eq_of_names_eq h)

theorem value?_set (environment : Environment) (name other : String) (value : Float) :
    (environment.set name (some value)).value? other
      = if other = name then some value else environment.value? other := by
  rw [value?, set, NameMap.find?_insert]
  by_cases hname : other = name
  · rw [if_pos hname, if_pos hname]
    rfl
  · rw [if_neg hname, if_neg hname]
    rfl

theorem isBound_set (environment : Environment) (name other : String) (value : Float) :
    (environment.set name (some value)).isBound other
      = (other = name || environment.isBound other) := by
  rw [isBound, value?_set, isBound]
  by_cases hname : other = name <;> simp [hname]

end Environment

/-! ## Tables -/

namespace Tables

variable {tables : Tables} {name : String}

theorem value_of_some {value : Float} (h : tables.«variables».find? name = some value) :
    Resolver.value tables name = (.ok value, tables) := by
  simp only [Resolver.value, h]

theorem value_of_none (h : tables.«variables».find? name = none) :
    Resolver.value tables name
      = (.error ("no value scripted for variable '" ++ name ++ "'"), tables) := by
  simp only [Resolver.value, h]

theorem function_of_some {function : UserFunction}
    (h : tables.functions.find? name = some function) :
    Resolver.function tables name = (.ok function, tables) := by
  simp only [Resolver.function, h]

theorem function_of_none (h : tables.functions.find? name = none) :
    Resolver.function tables name
      = (.error ("no body scripted for function '" ++ name ++ "'"), tables) := by
  simp only [Resolver.function, h]

end Tables

/-! ## Resolving -/

namespace Evaluation

variable {ρ : Type} [Resolver ρ] {state : EvalState ρ} {name : String}

/-- A bound name is read and nothing changes. -/
theorem resolve_of_value? {value : Float} (h : state.environment.value? name = some value) :
    resolve name state = (.ok value, state) := by
  have hentry : state.environment.entries.find? name = some (some value) := by
    simpa [Environment.value?, Option.join_eq_some_iff] using h
  rw [resolve, hentry]

/-- An unknown name is an error and nothing changes. -/
theorem resolve_of_not_isKnown (h : ¬ state.environment.isKnown name) :
    resolve name state = (.error (.unknownIdentifier name), state) := by
  have hentry : state.environment.entries.find? name = none := by
    simpa [Environment.isKnown, NameMap.contains] using h
  rw [resolve, hentry]

/-- The value of a name that is known and unbound is asked for. -/
theorem resolve_of_value?_eq_none (hknown : state.environment.isKnown name)
    (hunbound : state.environment.value? name = none) :
    resolve name state =
      match Resolver.value state.resolver name with
      | (.ok value, resolver) =>
        (.ok value, { environment := state.environment.set name (some value), resolver,
                      asked := state.asked ++ [.value name] })
      | (.error reason, resolver) =>
        (.error (.unanswered name reason),
          { state with resolver, asked := state.asked ++ [.value name] }) := by
  have hentry : state.environment.entries.find? name = some none := by
    rw [Environment.isKnown, NameMap.contains, Option.isSome_iff_exists] at hknown
    obtain ⟨entry, hentry⟩ := hknown
    rw [Environment.value?, hentry] at hunbound
    rw [hentry]
    exact congrArg some hunbound
  rw [resolve, hentry]
  simp only [askValue]
  rcases Resolver.value state.resolver name with ⟨reason | value, resolver⟩ <;> rfl

/-- A name is bound and read, or it is unknown, or its value is asked for and given or refused. -/
theorem resolve_cases (name : String) (state : EvalState ρ) :
    (∃ value, state.environment.value? name = some value ∧
      resolve name state = (.ok value, state)) ∨
    (¬ state.environment.isKnown name ∧
      resolve name state = (.error (.unknownIdentifier name), state)) ∨
    (∃ answer resolver, state.environment.isKnown name ∧ state.environment.value? name = none ∧
      Resolver.value state.resolver name = (answer, resolver) ∧
      resolve name state =
        match answer with
        | .ok value =>
          (.ok value, { environment := state.environment.set name (some value), resolver,
                        asked := state.asked ++ [.value name] })
        | .error reason =>
          (.error (.unanswered name reason),
            { state with resolver, asked := state.asked ++ [.value name] })) := by
  cases hbound : state.environment.value? name with
  | some value => exact .inl ⟨value, rfl, resolve_of_value? hbound⟩
  | none =>
      by_cases hknown : state.environment.isKnown name
      · refine .inr (.inr ?_)
        have hresolve := resolve_of_value?_eq_none hknown hbound
        rcases hanswer : Resolver.value state.resolver name with ⟨reason | value, resolver⟩
        · rw [hanswer] at hresolve
          exact ⟨.error reason, resolver, hknown, rfl, rfl, hresolve⟩
        · rw [hanswer] at hresolve
          exact ⟨.ok value, resolver, hknown, rfl, rfl, hresolve⟩
      · exact .inr (.inl ⟨hknown, resolve_of_not_isKnown hknown⟩)

/-- A name that has been resolved is bound to the value it was resolved to. -/
theorem value?_of_resolve_eq_ok {state' : EvalState ρ} {value : Float}
    (h : resolve name state = (.ok value, state')) :
    state'.environment.value? name = some value := by
  rcases resolve_cases name state with ⟨bound, hbound, hresolve⟩ | ⟨-, hresolve⟩ |
    ⟨reason | answer, resolver, -, -, -, hresolve⟩
  · obtain ⟨hvalue, rfl⟩ := Prod.mk.inj (hresolve.symm.trans h)
    rw [hbound, Except.ok.inj hvalue]
  -- An unknown name and a refusal give no value.
  · cases hresolve.symm.trans h
  · cases hresolve.symm.trans h
  · obtain ⟨hvalue, rfl⟩ := Prod.mk.inj (hresolve.symm.trans h)
    rw [Environment.value?_set, if_pos rfl, Except.ok.inj hvalue]

/-! ## Asking for functions -/

theorem askFunction_of_ok {function : UserFunction} {resolver : ρ}
    (h : Resolver.function state.resolver name = (.ok function, resolver)) :
    askFunction name state
      = (.ok function, { state with resolver, asked := state.asked ++ [.function name] }) := by
  simp only [askFunction, h]
  rfl

theorem askFunction_of_error {reason : String} {resolver : ρ}
    (h : Resolver.function state.resolver name = (.error reason, resolver)) :
    askFunction name state
      = (.error (.unanswered name reason),
          { state with resolver, asked := state.asked ++ [.function name] }) := by
  simp only [askFunction, h]
  rfl

end Evaluation

end Reckoner
