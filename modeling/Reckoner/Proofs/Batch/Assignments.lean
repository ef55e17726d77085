/-
  Reckoner.Proofs.Batch.Assignments

  Evaluating an expression with variables, in whichever order they come
  (`evaluateExpression_in_any_order`).

  Each variable is declared and then bound, and an environment may have an entry for it already:
  the constants are bound from the start and are not declared anew, and every expression finds the
  conventional names declared.  In all cases the variable has its value afterwards and no other
  entry has changed, so the environment in the end does not depend on the order.  A text that is
  no name ends the evaluation before the expression is looked at.
-/
import Reckoner.Batch
import Reckoner.Proofs.Evaluation.Entries

namespace Reckoner

/-! ## Variables that are declared and bound -/

/-- A variable that is declared and then bound has its value, and other names are left alone.  A
constant is not declared anew, but it is known already. -/
theorem Environment.exists_declare_bind {environment : Environment} {name : String}
    (hidentifier : isIdentifier name) (hconstant : isConstant name → environment.isKnown name)
    (value : Float) :
    ∃ declared, environment.declare name = .ok declared ∧
      ∀ other, (declared.bind name value).entries.find? other
        = if other = name then some (some value) else environment.entries.find? other := by
  obtain ⟨declared, hdeclared, hknown⟩ :
      ∃ declared, environment.declare name = .ok declared ∧ declared.isKnown name := by
    rw [declare, if_pos hidentifier]
    refine ⟨_, rfl, ?_⟩
    split
    · next h => exact hconstant h
    · exact isKnown_iff.2 (by simp [set])
  refine ⟨declared, hdeclared, fun other => ?_⟩
  rw [find?_bind hknown]
  split
  · rfl
  · next hne => exact find?_declare hdeclared fun heq => absurd heq hne

/-- What declaring and binding variables makes of the entries, one after the other: every variable
has its value, whatever it was before, and other names are left alone. -/
theorem Evaluator.exists_withVariables {evaluator : Evaluator Silent}
    {values : List (String × Float)} (hidentifiers : ∀ entry ∈ values, isIdentifier entry.1)
    (hconstants : ∀ name, Environment.isConstant name → evaluator.environment.isKnown name)
    (hdistinct : (values.map Prod.fst).Nodup) :
    ∃ environment, evaluator.withVariables values = .ok { evaluator with environment } ∧
      (∀ entry ∈ values, environment.entries.find? entry.1 = some (some entry.2)) ∧
      ∀ name, name ∉ values.map Prod.fst →
        environment.entries.find? name = evaluator.environment.entries.find? name := by
  induction values generalizing evaluator with
  | nil => exact ⟨evaluator.environment, rfl, nofun, fun _ _ => rfl⟩
  | cons entry rest ih =>
      obtain ⟨first, value⟩ := entry
      obtain ⟨hfirst, hrest⟩ := List.forall_mem_cons.1 hidentifiers
      obtain ⟨hnotin, hdistinct⟩ := List.nodup_cons.1 hdistinct
      obtain ⟨declared, hdeclared, hentries⟩ :=
        Environment.exists_declare_bind hfirst (hconstants first) value
      have hstep : evaluator.declareVariable first
          = .ok { evaluator with environment := declared } := by
        rw [declareVariable, hdeclared]
        rfl
      have hknown (name : String) (hconstant : Environment.isConstant name) :
          (declared.bind first value).isKnown name := by
        rw [Environment.isKnown_iff, hentries]
        split
        · simp
        · exact Environment.isKnown_iff.1 (hconstants name hconstant)
      obtain ⟨environment, hafter, hvalues, hothers⟩ :=
        @ih { evaluator with environment := declared.bind first value } hrest hknown hdistinct
      refine ⟨environment, ?_, List.forall_mem_cons.2 ⟨?_, hvalues⟩, fun name hname => ?_⟩
      · rw [withVariables, List.foldlM_cons]
        simp only [hstep]
        exact hafter
      · rw [hothers first hnotin, hentries, if_pos rfl]
      · rw [List.map_cons, List.mem_cons, not_or] at hname
        rw [hothers name hname.2, hentries, if_neg hname.1]

/-- The first text that is no name is reported, whatever comes after it. -/
theorem Evaluator.withVariables_of_not_isIdentifier {evaluator : Evaluator Silent} {name : String}
    {before after : List (String × Float)} (hbefore : ∀ entry ∈ before, isIdentifier entry.1)
    (hname : ¬ isIdentifier name) (value : Float) :
    evaluator.withVariables (before ++ (name, value) :: after)
      = .error (.invalidIdentifier name) := by
  induction before generalizing evaluator with
  | nil =>
      have hdeclare : evaluator.declareVariable name = .error (.invalidIdentifier name) := by
        rw [declareVariable, Environment.declare, if_neg hname]
        rfl
      rw [List.nil_append, withVariables, List.foldlM_cons]
      simp only [hdeclare]
      rfl
  | cons entry rest ih =>
      obtain ⟨first, value'⟩ := entry
      obtain ⟨hfirst, hrest⟩ := List.forall_mem_cons.1 hbefore
      have hdeclare : ∃ declared, evaluator.declareVariable first = .ok declared := by
        rw [declareVariable, Environment.declare, if_pos hfirst]
        exact ⟨_, rfl⟩
      obtain ⟨declared, hdeclare⟩ := hdeclare
      rw [List.cons_append, withVariables, List.foldlM_cons]
      simp only [hdeclare]
      exact ih hrest

/-! ## The environment of an expression with variables -/

namespace Environment

/-- The names that every new expression finds known. -/
theorem isKnown_resetConventional_initial_iff {name : String} :
    initial.resetConventional.isKnown name ↔ name ∈ ["e", "pi", "x", "y", "z"] := by
  have hnames : initial.resetConventional.names = ["e", "pi", "x", "y", "z"] := by decide +kernel
  rw [isKnown, NameMap.contains, ← NameMap.mem_names_iff, ← hnames, names]

theorem isKnown_resetConventional_initial_of_isConstant {name : String} (h : isConstant name) :
    initial.resetConventional.isKnown name := by
  have hconstants : ∀ entry ∈ constants, initial.resetConventional.isKnown entry.1 := by
    decide +kernel
  obtain ⟨entry, hentry, hname⟩ := List.any_eq_true.1 h
  exact of_decide_eq_true hname ▸ hconstants entry hentry

/-- Whatever has the same entry in both environments has the same value. -/
theorem value?_eq_of_find?_eq {environment environment' : Environment} {name : String}
    (h : environment'.entries.find? name = environment.entries.find? name) :
    environment'.value? name = environment.value? name :=
  congrArg Option.join h

/-- The environment that is meant by an assignment of values to variables.  Besides the variables
the constants are known, with their own values, and the conventional names, without any. -/
structure Holds (environment : Environment) (assignment : NameMap Float) : Prop where
  known : ∀ name, environment.isKnown name ↔
    name ∈ ["pi", "e", "x", "y", "z"] ∨ name ∈ assignment.names
  assigned : ∀ name value, assignment.find? name = some value →
    environment.value? name = some value
  constant : ∀ name value, (name, value) ∈ constants → name ∉ assignment.names →
    environment.value? name = some value
  unbound : ∀ name ∈ ["x", "y", "z"], name ∉ assignment.names → environment.value? name = none

/-- An environment with the entries of the assignment, and for all other names those that a new
expression finds. -/
theorem holds_of_find? {environment : Environment} {assignment : NameMap Float}
    (hassigned : ∀ entry ∈ assignment.entries,
      environment.entries.find? entry.1 = some (some entry.2))
    (hothers : ∀ name, name ∉ assignment.names →
      environment.entries.find? name = initial.resetConventional.entries.find? name) :
    environment.Holds assignment where
  known := by
    intro name
    by_cases hname : name ∈ assignment.names
    · obtain ⟨entry, hentry, rfl⟩ := List.mem_map.1 hname
      rw [isKnown_iff, hassigned entry hentry]
      exact iff_of_true nofun (.inr hname)
    · rw [isKnown_iff, hothers name hname, ← isKnown_iff, isKnown_resetConventional_initial_iff,
        or_iff_left hname]
      simp only [List.mem_cons, List.not_mem_nil, or_false]
      exact or_left_comm
  assigned := by
    intro name value hvalue
    have hentry : (name, value) ∈ assignment.entries :=
      (NameMap.lookup_eq_some_iff assignment.ascending).1 hvalue
    rw [value?, hassigned _ hentry]
    rfl
  constant := by
    intro name value hconstant hname
    have hconstants : ∀ entry ∈ constants,
        initial.resetConventional.value? entry.1 = some entry.2 := by decide +kernel
    rw [value?_eq_of_find?_eq (hothers name hname)]
    exact hconstants (name, value) hconstant
  unbound := by
    intro name hconventional hname
    rw [value?, hothers name hname, find?_resetConventional_of_mem hconventional]
    rfl

end Environment

/-! ## Any order -/

/-- With variables of different names an expression is evaluated in the environment that has an
entry for each, and is as a new expression finds it for all other names. -/
theorem exists_evaluateExpression_eq (expression : String) {values : List (String × Float)}
    (hidentifiers : ∀ entry ∈ values, isIdentifier entry.1)
    (hdistinct : (values.map Prod.fst).Nodup) :
    ∃ environment : Environment,
      (∀ entry ∈ values, environment.entries.find? entry.1 = some (some entry.2)) ∧
      (∀ name, name ∉ values.map Prod.fst → environment.entries.find? name
        = Environment.initial.resetConventional.entries.find? name) ∧
      evaluateExpression expression values
        = (Evaluator.evaluate { expression, environment, resolver := ({} : Silent) }).result := by
  let evaluator : Evaluator Silent := Evaluator.setExpression { resolver := {} } expression
  have hconstants : ∀ name, Environment.isConstant name → evaluator.environment.isKnown name :=
    fun _ => Environment.isKnown_resetConventional_initial_of_isConstant
  obtain ⟨environment, hafter, hset, hothers⟩ :=
    Evaluator.exists_withVariables hidentifiers hconstants hdistinct
  refine ⟨environment, hset, hothers, ?_⟩
  rw [evaluateExpression, hafter]
  rfl

/-- Where one of the texts is no name, one of those is reported. -/
theorem exists_evaluateExpression_eq_error (expression : String) {values : List (String × Float)}
    (h : ∃ entry ∈ values, ¬ isIdentifier entry.1) :
    ∃ entry ∈ values, ¬ isIdentifier entry.1 ∧
      evaluateExpression expression values = .error (.invalidIdentifier entry.1) := by
  obtain ⟨entry, hentry, hname⟩ := h
  have hsome : (values.find? fun entry => !isIdentifier entry.1).isSome := by
    rw [List.find?_isSome]
    exact ⟨entry, hentry, by simpa using hname⟩
  obtain ⟨first, hfirst⟩ := Option.isSome_iff_exists.1 hsome
  obtain ⟨hinvalid, before, after, rfl, hbefore⟩ := List.find?_eq_some_iff_append.1 hfirst
  have hinvalid : ¬ isIdentifier first.1 := by simpa using hinvalid
  have hbefore : ∀ entry ∈ before, isIdentifier entry.1 := by simpa using hbefore
  refine ⟨first, by simp, hinvalid, ?_⟩
  rw [evaluateExpression, Evaluator.withVariables_of_not_isIdentifier hbefore hinvalid first.2]
  rfl

/-- The variables of an expression may be walked through in any order.  If all of them are names,
the result is that of evaluating the expression in the environment that holds them, with nobody to
ask.  If not, one of those that are none is reported, whatever the expression is. -/
theorem evaluateExpression_in_any_order (expression : String) (assignment : NameMap Float) :
    ((∀ name ∈ assignment.names, isIdentifier name) →
      ∃ environment : Environment, environment.Holds assignment ∧
        ∀ walk : List (String × Float), walk.Perm assignment.entries →
          evaluateExpression expression walk
            = (Evaluator.evaluate { expression, environment, resolver := ({} : Silent) }).result) ∧
    ((∃ name ∈ assignment.names, ¬ isIdentifier name) →
      ∀ walk : List (String × Float), walk.Perm assignment.entries →
        ∃ name ∈ assignment.names, ¬ isIdentifier name ∧
          evaluateExpression expression walk = .error (.invalidIdentifier name)) := by
  constructor
  · intro hidentifiers
    have hwalk {walk : List (String × Float)} (hperm : walk.Perm assignment.entries) :=
      exists_evaluateExpression_eq expression
        (fun entry hentry => hidentifiers entry.1 (List.mem_map_of_mem (hperm.mem_iff.1 hentry)))
        ((hperm.map Prod.fst).nodup_iff.2 assignment.nodup_names)
    obtain ⟨environment, hassigned, hothers, -⟩ := hwalk (.refl _)
    refine ⟨environment, Environment.holds_of_find? hassigned hothers, fun walk hperm => ?_⟩
    obtain ⟨environment', hassigned', hothers', hresult⟩ := hwalk hperm
    -- Whatever the order, the same names have the same entries in the end.
    have hsame : environment' = environment := by
      refine Environment.ext_find? fun name => ?_
      by_cases hname : name ∈ assignment.names
      · obtain ⟨entry, hentry, rfl⟩ := List.mem_map.1 hname
        rw [hassigned entry hentry, hassigned' entry (hperm.mem_iff.2 hentry)]
      · rw [hothers name hname,
          hothers' name fun h => hname ((hperm.map Prod.fst).mem_iff.1 h)]
    rw [hresult, hsame]
  · rintro ⟨name, hname, hinvalid⟩ walk hperm
    obtain ⟨entry, hentry, rfl⟩ := List.mem_map.1 hname
    obtain ⟨first, hfirst, hinvalid', hresult⟩ := exists_evaluateExpression_eq_error expression
      ⟨entry, hperm.mem_iff.2 hentry, hinvalid⟩
    exact ⟨first.1, List.mem_map_of_mem (hperm.mem_iff.1 hfirst), hinvalid', hresult⟩

/-- The constant `e` has another value, whether it comes first or last; and the text that is no name
is reported although the expression cannot be read. -/
theorem evaluateExpression_in_any_order_of_two :
    evaluateExpression "e*rate" [("rate", 3), ("e", 2)]
      = evaluateExpression "e*rate" [("e", 2), ("rate", 3)] ∧
    evaluateExpression "1.2.3" [("x", 1), ("price_1", 2)]
      = .error (.invalidIdentifier "price_1") := by
  constructor
  · let assignment : NameMap Float := .ofList [("e", 2), ("rate", 3)]
    have hnames : ∀ name ∈ assignment.names, isIdentifier name := by decide +kernel
    have hentries : assignment.entries = [("e", 2), ("rate", 3)] := by decide +kernel
    obtain ⟨environment, -, hwalk⟩ := (evaluateExpression_in_any_order "e*rate" assignment).1 hnames
    rw [hentries] at hwalk
    rw [hwalk [("rate", 3), ("e", 2)] (List.Perm.swap _ _ _), hwalk _ (.refl _)]
  · let assignment : NameMap Float := .ofList [("price_1", 2), ("x", 1)]
    have hentries : assignment.entries = [("price_1", 2), ("x", 1)] := by decide +kernel
    have hnames : ∀ name ∈ assignment.names, isIdentifier name ∨ name = "price_1" := by
      decide +kernel
    obtain ⟨name, hname, hinvalid, hresult⟩ :=
      (evaluateExpression_in_any_order "1.2.3" assignment).2
        ⟨"price_1", by decide +kernel, by decide +kernel⟩ [("x", 1), ("price_1", 2)]
        (hentries ▸ List.Perm.swap _ _ _)
    rw [hresult, (hnames name hname).resolve_left hinvalid]

end Reckoner
