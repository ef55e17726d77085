/-
  Reckoner.Proofs.Evaluation.Entries

  What becomes of the entries of an environment.

  An operation changes the entries it is for and no others, and an evaluation fills entries that are
  still open and changes nothing else (`Evaluator.find?_evaluate`).  So where nothing has been
  declared or bound but the conventional names, all that is left of the past is their values, and
  a new expression forgets them: it finds the same environment as at first
  (`Environment.Pristine.resetConventional_eq`).
-/
import Reckoner.Evaluator
import Reckoner.Proofs.Evaluation.Resolve

namespace Reckoner

namespace Environment

variable {environment : Environment} {name : String}

/-- Environments that answer every look-up alike are equal. -/
theorem ext_find? {environment' : Environment}
    (h : ∀ name, environment.entries.find? name = environment'.entries.find? name) :
    environment = environment' := by
  cases environment
  cases environment'
  exact congrArg Environment.mk (NameMap.ext h)

theorem isKnown_iff : environment.isKnown name ↔ environment.entries.find? name ≠ none :=
  Option.isSome_iff_ne_none

/-! ## Entries after an operation -/

/-- A new expression leaves all names but the conventional ones as they were. -/
theorem find?_resetConventional (h : name ∉ conventional) :
    environment.resetConventional.entries.find? name = environment.entries.find? name := by
  unfold resetConventional
  generalize conventional = names at h
  induction names generalizing environment with
  | nil => rfl
  | cons other rest ih =>
      rw [List.mem_cons, not_or] at h
      rw [List.foldl_cons, ih h.2]
      exact NameMap.find?_insert_of_ne _ h.1 _

/-- A new expression opens the entries of the conventional names. -/
theorem find?_resetConventional_of_mem (h : name ∈ conventional) :
    environment.resetConventional.entries.find? name = some none := by
  simp only [conventional, List.mem_cons, List.not_mem_nil, or_false] at h
  rcases h with rfl | rfl | rfl <;>
    simp [resetConventional, conventional, set, NameMap.find?_insert]

/-- A declaration leaves all names but its own as they were, and that one too if it is a
constant. -/
theorem find?_declare {declared : Environment} {new : String}
    (hdeclared : environment.declare new = .ok declared) (hname : name = new → isConstant new) :
    declared.entries.find? name = environment.entries.find? name := by
  rw [declare] at hdeclared
  split at hdeclared
  · rw [← Except.ok.inj hdeclared]
    split
    · rfl
    · next hconstant =>
        exact NameMap.find?_insert_of_ne _ (fun heq => hconstant (hname heq)) _
  · cases hdeclared

/-- Binding a known name sets its entry and no other. -/
theorem find?_bind {bound : String} (hknown : environment.isKnown bound) (value : Float) :
    (environment.bind bound value).entries.find? name
      = if name = bound then some (some value) else environment.entries.find? name := by
  rw [bind, if_pos hknown]
  exact NameMap.find?_insert _ _ _ _

/-- At first only the constants have entries, and none of them is open. -/
theorem find?_initial_ne (name : String) : initial.entries.find? name ≠ some none := by
  rw [initial, NameMap.ofList]
  simp only [constants, List.map_cons, List.map_nil, List.foldl_cons, List.foldl_nil,
    NameMap.find?_insert]
  split
  · simp
  · split
    · simp
    · exact nofun

end Environment

/-! ## Entries after an evaluation -/

/-- Entries that are not open are the same afterwards. -/
def KeepsEntries {ρ : Type} (before after : EvalState ρ) : Prop :=
  ∀ name, before.environment.entries.find? name ≠ some none →
    after.environment.entries.find? name = before.environment.entries.find? name

theorem stable_keepsEntries {ρ : Type} [Resolver ρ] : Evaluation.Stable (@KeepsEntries ρ) where
  refl := fun _ _ _ => rfl
  trans := by
    intro first second third h h' name hname
    have hsecond := h name hname
    rw [h' name (by rwa [hsecond]), hsecond]
  resolve := by
    intro name state other hother
    rw [Evaluation.resolve]
    split
    · rfl
    · rfl
    · -- The entry that is filled was open.
      next hopen =>
        have hne : other ≠ name := by
          rintro rfl
          exact hother hopen
        simp only [Evaluation.askValue]
        rcases Resolver.value state.resolver name with ⟨reason | value, resolver⟩
        · rfl
        · exact NameMap.find?_insert_of_ne _ hne _
  askFunction := fun _ _ _ _ => rfl

/-- An evaluation changes no entry but open ones. -/
theorem Evaluator.find?_evaluate {ρ : Type} [Resolver ρ] {evaluator : Evaluator ρ} {name : String}
    (h : evaluator.environment.entries.find? name ≠ some none) :
    evaluator.evaluate.evaluator.environment.entries.find? name
      = evaluator.environment.entries.find? name :=
  stable_keepsEntries.evaluateText evaluator.expression
    { environment := evaluator.environment, resolver := evaluator.resolver } name h

/-! ## Environments without a past -/

namespace Environment

/-- All names but the conventional ones are as they were at first. -/
def Pristine (environment : Environment) : Prop :=
  ∀ name, name ∉ conventional → environment.entries.find? name = initial.entries.find? name

namespace Pristine

variable {environment : Environment}

theorem initial : Pristine .initial :=
  fun _ _ => rfl

theorem resetConventional (h : Pristine environment) : Pristine environment.resetConventional :=
  fun name hname => (find?_resetConventional hname).trans (h name hname)

/-- Binding a conventional name leaves all others as they were. -/
theorem bind (h : Pristine environment) {name : String} (hname : name ∈ conventional)
    (value : Float) : Pristine (environment.bind name value) := by
  intro other hother
  have hne : other ≠ name := by
    rintro rfl
    exact hother hname
  rw [Environment.bind]
  split
  · exact (NameMap.find?_insert_of_ne _ hne _).trans (h other hother)
  · exact h other hother

/-- What an evaluation learns it writes down with the conventional names. -/
theorem evaluate {ρ : Type} [Resolver ρ] {evaluator : Evaluator ρ}
    (h : Pristine evaluator.environment) : Pristine evaluator.evaluate.evaluator.environment := by
  intro name hname
  have hentry := h name hname
  rw [Evaluator.find?_evaluate (by rw [hentry]; exact find?_initial_ne name), hentry]

/-- A new expression finds the environment as at first. -/
theorem resetConventional_eq (h : Pristine environment) :
    environment.resetConventional = Environment.initial.resetConventional := by
  refine ext_find? fun name => ?_
  by_cases hname : name ∈ conventional
  · rw [find?_resetConventional_of_mem hname, find?_resetConventional_of_mem hname]
  · rw [find?_resetConventional hname, find?_resetConventional hname, h name hname]

end Pristine

end Environment

end Reckoner
