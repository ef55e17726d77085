/-
  Reckoner.Proofs.Evaluation.Operations

  What operations make of an environment, in any order and number
  (`Environment.invariants_after`).

  Four operations change environments: names are declared, bound and resolved, and the
  conventional ones are made unbound.  Each has the names it is for, and leaves the entries of all
  others alone (`Operation.find?_perform`); one that fails leaves all entries alone
  (`Operation.perform_of_fails`).  So what is known stays known, and a bound name is unbound by
  the two operations that are to do so and by no others.
-/
import Reckoner.Proofs.Evaluation.Entries
import Reckoner.Proofs.Evaluation.Reachable

namespace Reckoner

namespace Environment

/-! ## Operations -/

/-- The operations on environments.  A name is resolved by a resolver of any kind, in any of its
states. -/
inductive Operation : Type 1
  | declare (name : String)
  | resetConventional
  | bind (name : String) (value : Float)
  | resolve {ρ : Type} [Resolver ρ] (resolver : ρ) (name : String)

/-- What an operation gives back. -/
inductive Reply
  | declared (outcome : Except EvalError Unit)
  | done
  /-- Whether the name was known. -/
  | bound (known : Bool)
  | resolved (outcome : Except EvalError Float)

/-- The operation has ended with an error or has told that it did nothing. -/
def Reply.Fails : Reply → Prop
  | .declared outcome => ∃ error, outcome = .error error
  | .done => False
  | .bound known => known = false
  | .resolved outcome => ∃ error, outcome = .error error

namespace Operation

/-- Carries out the operation. -/
def perform (environment : Environment) : Operation → Reply × Environment
  | .declare name =>
    match environment.declare name with
    | .ok declared => (.declared (.ok ()), declared)
    | .error error => (.declared (.error error), environment)
  | .resetConventional => (.done, environment.resetConventional)
  | .bind name value => (.bound (environment.isKnown name), environment.bind name value)
  | @resolve _ _ resolver name =>
    let (outcome, state) := Evaluation.resolve name { environment, resolver }
    (.resolved outcome, state.environment)

/-- The names whose entries the operation is for. -/
def IsFor (name : String) : Operation → Prop
  | .declare declared => name = declared
  | .resetConventional => name ∈ conventional
  | .bind bound _ => name = bound
  | @resolve _ _ _ resolved => name = resolved

/-- The operation cannot be carried out: the name is none, or it is unknown, or its value is asked
for and refused. -/
def Refused (environment : Environment) : Operation → Prop
  | .declare name => ¬ isIdentifier name
  | .resetConventional => False
  | .bind name _ => ¬ environment.isKnown name
  | @resolve _ _ resolver name =>
    ¬ environment.isKnown name ∨
      environment.value? name = none ∧ ∃ reason, (Resolver.value resolver name).1 = .error reason

end Operation

/-- The environment after operations, one after the other. -/
def after (environment : Environment) (operations : List Operation) : Environment :=
  operations.foldl (fun environment operation => (operation.perform environment).2) environment

/-! ## One operation -/

theorem isBound_of_find?_eq {environment environment' : Environment} {name : String}
    (h : environment'.entries.find? name = environment.entries.find? name) :
    environment'.isBound name = environment.isBound name := by
  rw [isBound, isBound, value?, value?, h]

namespace Operation

variable {environment : Environment} {operation : Operation} {name : String}

theorem perform_declare_of_ok {declared : Environment}
    (h : environment.declare name = .ok declared) :
    (Operation.declare name).perform environment = (.declared (.ok ()), declared) := by
  rw [perform, h]

theorem perform_declare_of_error {error : EvalError}
    (h : environment.declare name = .error error) :
    (Operation.declare name).perform environment = (.declared (.error error), environment) := by
  rw [perform, h]

/-- An operation changes the entries that it is for, and no others. -/
theorem find?_perform (h : ¬ operation.IsFor name) :
    (operation.perform environment).2.entries.find? name = environment.entries.find? name := by
  cases operation with
  | declare new =>
      cases hdeclared : environment.declare new with
      | ok declared =>
          rw [perform_declare_of_ok hdeclared]
          exact find?_declare hdeclared fun hname => absurd hname h
      | error error => rw [perform_declare_of_error hdeclared]
  | resetConventional => exact find?_resetConventional h
  | bind bound value =>
      show (environment.bind bound value).entries.find? name = _
      rw [Environment.bind]
      split
      · exact NameMap.find?_insert_of_ne _ h _
      · rfl
  | @resolve ρ _ resolver resolved =>
      by_cases hopen : environment.entries.find? name = some none
      · -- The entry that is filled is that of the name that is resolved.
        show (Evaluation.resolve resolved { environment, resolver }).2.environment.entries.find? name
          = _
        rw [Evaluation.resolve]
        split
        · rfl
        · rfl
        · simp only [Evaluation.askValue]
          rcases Resolver.value resolver resolved with ⟨reason | value, after⟩
          · rfl
          · exact NameMap.find?_insert_of_ne _ h _
      · exact stable_keepsEntries.resolve resolved { environment, resolver } name hopen

theorem not_exists_ok_eq_error {α : Type} (value : α) :
    ¬ ∃ error : EvalError, Except.ok value = .error error := by
  rintro ⟨_, herror⟩
  cases herror

/-- An operation fails where it cannot be carried out, and only there. -/
theorem fails_perform_iff :
    (operation.perform environment).1.Fails ↔ operation.Refused environment := by
  cases operation with
  | declare name =>
      by_cases hname : isIdentifier name
      · have hdeclared : ∃ declared, environment.declare name = .ok declared := by
          rw [Environment.declare, if_pos hname]
          exact ⟨_, rfl⟩
        obtain ⟨declared, hdeclared⟩ := hdeclared
        rw [perform_declare_of_ok hdeclared]
        exact iff_of_false (not_exists_ok_eq_error ()) fun hrefused => hrefused hname
      · have hdeclared : environment.declare name = .error (.invalidIdentifier name) := by
          rw [Environment.declare, if_neg hname]
        rw [perform_declare_of_error hdeclared]
        exact iff_of_true ⟨_, rfl⟩ hname
  | resetConventional => exact Iff.rfl
  | bind name value => exact Bool.eq_false_iff
  | @resolve ρ _ resolver name =>
      show (∃ error, (Evaluation.resolve name { environment, resolver }).1 = .error error) ↔ _
      rcases Evaluation.resolve_cases name { environment, resolver } with
        ⟨value, hvalue, hresolve⟩ | ⟨hunknown, hresolve⟩ |
        ⟨reason | value, after, hknown, hunbound, hanswer, hresolve⟩
      · rw [hresolve]
        refine iff_of_false (not_exists_ok_eq_error value) ?_
        rintro (hunknown | ⟨hunbound, -⟩)
        · exact hunknown (isKnown_of_isBound (Option.isSome_iff_exists.2 ⟨value, hvalue⟩))
        · cases hunbound.symm.trans hvalue
      · rw [hresolve]
        exact iff_of_true ⟨_, rfl⟩ (.inl hunknown)
      · rw [hresolve]
        exact iff_of_true ⟨_, rfl⟩ (.inr ⟨hunbound, reason, congrArg Prod.fst hanswer⟩)
      · rw [hresolve]
        refine iff_of_false (not_exists_ok_eq_error value) ?_
        rintro (hunknown | ⟨-, reason, hreason⟩)
        · exact hunknown hknown
        · cases (congrArg Prod.fst hanswer).symm.trans hreason

/-- An operation that fails leaves the environment as it was. -/
theorem perform_of_fails (h : (operation.perform environment).1.Fails) :
    (operation.perform environment).2 = environment := by
  rw [fails_perform_iff] at h
  cases operation with
  | declare name =>
      have hdeclared : environment.declare name = .error (.invalidIdentifier name) := by
        rw [Environment.declare, if_neg h]
      rw [perform_declare_of_error hdeclared]
  | resetConventional => exact h.elim
  | bind name value =>
      show environment.bind name value = environment
      rw [Environment.bind, if_neg h]
  | @resolve ρ _ resolver name =>
      show (Evaluation.resolve name { environment, resolver }).2.environment = environment
      rcases Evaluation.resolve_cases name { environment, resolver } with
        ⟨value, -, hresolve⟩ | ⟨-, hresolve⟩ |
        ⟨reason | value, after, hknown, -, hanswer, hresolve⟩
      · rw [hresolve]
      · rw [hresolve]
      · rw [hresolve]
      · -- The value was given.
        obtain ⟨-, reason, hreason⟩ := h.resolve_left fun hunknown => hunknown hknown
        cases (congrArg Prod.fst hanswer).symm.trans hreason

/-- What is known stays known. -/
theorem isKnown_perform (h : environment.isKnown name) :
    (operation.perform environment).2.isKnown name := by
  cases operation with
  | declare new =>
      cases hdeclared : environment.declare new with
      | ok declared =>
          rw [perform_declare_of_ok hdeclared]
          rw [Environment.declare] at hdeclared
          split at hdeclared
          · rw [← Except.ok.inj hdeclared]
            split
            · exact h
            · rw [isKnown_set, h, Bool.or_true]
          · cases hdeclared
      | error error =>
          rw [perform_declare_of_error hdeclared]
          exact h
  | resetConventional =>
      show environment.resetConventional.isKnown name
      simp only [Environment.resetConventional, conventional, List.foldl_cons, List.foldl_nil,
        isKnown_set, h, Bool.or_true]
  | bind bound value =>
      show (environment.bind bound value).isKnown name
      rw [Environment.bind]
      split
      · rw [isKnown_set, h, Bool.or_true]
      · exact h
  | @resolve ρ _ resolver resolved =>
      show (Evaluation.resolve resolved { environment, resolver }).2.environment.isKnown name
      rw [Reachable.isKnown_resolve]
      exact h

/-- A name is unbound by a new expression, if it is a conventional one, and by its declaration, if
it is no constant. -/
theorem eq_of_not_isBound_perform (hbound : environment.isBound name)
    (hunbound : ¬ (operation.perform environment).2.isBound name) :
    (operation = .resetConventional ∧ name ∈ conventional) ∨
      (operation = .declare name ∧ ¬ isConstant name) := by
  -- The entry has changed, so the operation is for the name.
  have hchanged : (operation.perform environment).2.entries.find? name
      ≠ environment.entries.find? name := by
    intro hsame
    rw [isBound_of_find?_eq hsame] at hunbound
    exact hunbound hbound
  have hfor : operation.IsFor name :=
    Classical.byContradiction fun hother => hchanged (find?_perform hother)
  cases operation with
  | resetConventional => exact .inl ⟨rfl, hfor⟩
  | declare new =>
      obtain rfl : name = new := hfor
      refine .inr ⟨rfl, fun hconstant => hchanged ?_⟩
      cases hdeclared : environment.declare name with
      | ok declared =>
          rw [perform_declare_of_ok hdeclared]
          exact find?_declare hdeclared fun _ => hconstant
      | error error => rw [perform_declare_of_error hdeclared]
  | bind bound value =>
      obtain rfl : name = bound := hfor
      refine absurd ?_ hunbound
      show (environment.bind name value).isBound name
      rw [Environment.bind, if_pos (isKnown_of_isBound hbound), isBound_set, hbound,
        Bool.or_true]
  | @resolve ρ _ resolver resolved =>
      -- Resolving fills entries that are open, and that of a bound name is not.
      refine absurd (stable_keepsEntries.resolve resolved { environment, resolver } name ?_) hchanged
      intro hopen
      rw [isBound, value?, show environment.entries.find? name = some none from hopen] at hbound
      cases hbound

/-- What is reachable stays so. -/
theorem reachable_perform (h : environment.Reachable) :
    (operation.perform environment).2.Reachable := by
  cases operation with
  | declare name =>
      cases hdeclared : environment.declare name with
      | ok declared =>
          rw [perform_declare_of_ok hdeclared]
          exact h.declare hdeclared
      | error error =>
          rw [perform_declare_of_error hdeclared]
          exact h
  | resetConventional => exact h.resetConventional
  | bind name value => exact h.bind name value
  | @resolve ρ _ resolver name => exact @Reachable.resolve ρ _ { environment, resolver } h name

end Operation

/-- The constants are known in every environment that can come about. -/
theorem Reachable.isKnown_of_isConstant {environment : Environment} {name : String}
    (h : environment.Reachable) (hname : isConstant name) : environment.isKnown name := by
  induction h with
  | initial =>
      have hconstants : ∀ constant ∈ constants, constant.1 ∈ ["e", "pi"] := by decide
      obtain ⟨constant, hconstant, hsame⟩ := List.any_eq_true.1 hname
      rw [isKnown_initial_iff, ← of_decide_eq_true hsame]
      exact hconstants constant hconstant
  | @declare environment _ declared _ hdeclared ih =>
      have hperform : ((Operation.declare declared).perform environment).2.isKnown name :=
        Operation.isKnown_perform ih
      rwa [Operation.perform_declare_of_ok hdeclared] at hperform
  | @resetConventional environment _ ih =>
      show (Operation.resetConventional.perform environment).2.isKnown name
      exact Operation.isKnown_perform ih
  | @bind environment _ bound value ih =>
      show ((Operation.bind bound value).perform environment).2.isKnown name
      exact Operation.isKnown_perform ih
  | resolve _ resolved ih => rwa [Reachable.isKnown_resolve]

/-! ## Operations one after the other -/

variable {environment : Environment} {name : String}

theorem after_append (environment : Environment) (first second : List Operation) :
    environment.after (first ++ second) = (environment.after first).after second :=
  List.foldl_append

/-- What an operation keeps is kept by any number of them. -/
theorem after_of_perform (property : Environment → Prop)
    (hstep : ∀ (environment : Environment) (operation : Operation), property environment →
      property (operation.perform environment).2)
    (h : property environment) (operations : List Operation) :
    property (environment.after operations) := by
  induction operations generalizing environment with
  | nil => exact h
  | cons operation rest ih => exact ih (hstep environment operation h)

/-- The constants stay bound. -/
theorem isBound_after_of_isConstant (hname : isConstant name) (operations : List Operation) :
    (initial.after operations).isBound name := by
  refine after_of_perform (fun environment => environment.isBound name)
    (fun environment operation hbound => ?_) ?_ operations
  · refine Classical.byContradiction fun hunbound => ?_
    have hnone : ∀ name ∈ conventional, ¬ isConstant name := by decide
    rcases Operation.eq_of_not_isBound_perform hbound hunbound with ⟨-, hmem⟩ | ⟨-, hconstant⟩
    · exact hnone name hmem hname
    · exact hconstant hname
  · have hbound : ∀ name ∈ constants.map Prod.fst, initial.isBound name := by decide +kernel
    obtain ⟨constant, hconstant, hsame⟩ := List.any_eq_true.1 hname
    exact hbound name (List.mem_map.2 ⟨constant, hconstant, of_decide_eq_true hsame⟩)

end Environment

/-- After any operations, all names known are identifiers, the constants are known and bound, and
what was known before is known still.  A further operation unbinds a name only if it is a new
expression and the name a conventional one, or if it is the declaration of the name, which is no
constant; it changes no entries but those it is for, and if it fails it changes none.  It fails
where it cannot be carried out. -/
theorem Environment.invariants_after (operations : List Operation) :
    (∀ name, (initial.after operations).isKnown name →
      name ≠ "" ∧ ∀ c ∈ name.toList, Unicode.isAlphabetic c) ∧
    (∀ name ∈ ["pi", "e"], (initial.after operations).isKnown name ∧
      (initial.after operations).isBound name) ∧
    (∀ more name, (initial.after operations).isKnown name →
      (initial.after (operations ++ more)).isKnown name) ∧
    ∀ operation : Operation,
      (∀ name, (initial.after operations).isBound name →
        ¬ (operation.perform (initial.after operations)).2.isBound name →
        (operation = .resetConventional ∧ name ∈ ["x", "y", "z"]) ∨
          (operation = .declare name ∧ name ∉ ["pi", "e"])) ∧
      (∀ name, ¬ operation.IsFor name →
        (operation.perform (initial.after operations)).2.entries.find? name
          = (initial.after operations).entries.find? name) ∧
      ((operation.perform (initial.after operations)).1.Fails ↔
        operation.Refused (initial.after operations)) ∧
      ((operation.perform (initial.after operations)).1.Fails →
        (operation.perform (initial.after operations)).2 = initial.after operations) := by
  have hconstants : ∀ name ∈ ["pi", "e"], isConstant name := by decide
  refine ⟨fun name hknown => ?_, fun name hname => ?_, fun more name hknown => ?_,
    fun operation => ⟨fun name hbound hunbound => ?_, fun name => Operation.find?_perform,
      Operation.fails_perform_iff, Operation.perform_of_fails⟩⟩
  · have hreachable : (initial.after operations).Reachable :=
      after_of_perform Reachable (fun _ _ => Operation.reachable_perform) .initial operations
    have hidentifier := hreachable.isIdentifier_of_isKnown hknown
    simpa [isIdentifier, List.all_eq_true] using hidentifier
  · have hbound := isBound_after_of_isConstant (hconstants name hname) operations
    exact ⟨isKnown_of_isBound hbound, hbound⟩
  · rw [after_append]
    exact after_of_perform (fun environment => environment.isKnown name)
      (fun _ _ => Operation.isKnown_perform) hknown more
  · rcases Operation.eq_of_not_isBound_perform hbound hunbound with h | ⟨rfl, hconstant⟩
    · exact .inl h
    · exact .inr ⟨rfl, fun hname => hconstant (hconstants name hname)⟩

/-- An unknown name cannot be bound.  The declaration of another leaves the constant bound, and what
was bound to a conventional name. -/
theorem Environment.invariants_after_new_expression :
    ((Operation.bind "q" 2).perform
        (initial.after [.resetConventional, .bind "x" 1, .declare "pi"])).2
      = initial.after [.resetConventional, .bind "x" 1, .declare "pi"] ∧
    (initial.after [.resetConventional, .bind "x" 1, .declare "pi"]).isBound "pi" ∧
    ((Operation.declare "q").perform
        (initial.after [.resetConventional, .bind "x" 1, .declare "pi"])).2.entries.find? "x"
      = some (some 1) := by
  obtain ⟨-, hconstants, -, hstep⟩ :=
    Environment.invariants_after [.resetConventional, .bind "x" 1, .declare "pi"]
  obtain ⟨-, -, hfails, hunchanged⟩ := hstep (.bind "q" 2)
  obtain ⟨-, hframe, -⟩ := hstep (.declare "q")
  refine ⟨hunchanged (hfails.2 ?_), (hconstants "pi" List.mem_cons_self).2, ?_⟩
  · show ¬ (initial.after _).isKnown "q" = true
    decide +kernel
  · rw [hframe "x" (show ¬ "x" = "q" by decide)]
    decide +kernel

end Reckoner
