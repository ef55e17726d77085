/-
  Reckoner.Proofs.Evaluation.Repetition

  Evaluating again comes to the same, if the answers are those of tables
  (`Evaluator.evaluate_again`).

  The first evaluation may leave names bound that were not, so the second starts from another
  environment.  But a name that the first has bound has the value that the tables have for it: where
  the first asks and is answered, the second reads the answer.  Only a refusal leaves nothing to
  read, and it is the last thing that happens.  So the two evaluations go side by side, the second
  all the while in the environment that the first ends with.
-/
import Reckoner.Proofs.Evaluation.Refusals

namespace Reckoner

/-! ## Requests to tables -/

/-- Whether a function is asked for. -/
def Request.isFunction : Request → Bool
  | .value _ => false
  | .function _ => true

namespace Tables

/-- Whether the request would be made again: it is not for a value that is given. -/
def repeats (tables : Tables) : Request → Bool
  | .value name => (tables.«variables».find? name).isNone
  | .function _ => true

/-- The functions are all asked for again. -/
theorem filter_isFunction_filter_repeats (tables : Tables) (requests : List Request) :
    (requests.filter tables.repeats).filter Request.isFunction
      = requests.filter Request.isFunction := by
  rw [List.filter_filter]
  refine List.filter_congr fun request _ => ?_
  cases request with
  | value name => rfl
  | function name => rfl

theorem exchanges_eq_map (tables : Tables) (requests : List Request) :
    exchanges tables requests = requests.map fun request => (request.pose tables).1 := by
  induction requests with
  | nil => rfl
  | cons request rest ih => rw [exchanges, pose_snd, ih, List.map_cons]

/-- What has been answered is in the table. -/
theorem find?_of_mem_exchanges {tables : Tables} {requests : List Request} {name : String}
    {value : Float} (h : .value name (.ok value) ∈ exchanges tables requests) :
    tables.«variables».find? name = some value := by
  rw [exchanges_eq_map] at h
  obtain ⟨request, -, hpose⟩ := List.mem_map.1 h
  cases request with
  | function asked => cases hpose
  | value asked =>
      cases hfound : tables.«variables».find? asked with
      | none =>
          rw [Request.pose, value_of_none hfound] at hpose
          cases hpose
      | some found =>
          rw [Request.pose, value_of_some hfound] at hpose
          obtain ⟨rfl, hvalue⟩ := Exchange.value.inj hpose
          rw [hfound, Except.ok.inj hvalue]

/-- A value that would be asked for again is refused. -/
theorem refusal?_pose_of_repeats {tables : Tables} {name : String}
    (h : tables.repeats (.value name)) :
    ((Request.value name).pose tables).1.refusal?
      = some (name, "no value scripted for variable '" ++ name ++ "'") := by
  rw [Request.pose, value_of_none (Option.isNone_iff_eq_none.1 h)]
  rfl

/-- Of requests that were not refused, those for functions would be made again. -/
theorem filter_repeats_of_answered {tables : Tables} {requests : List Request}
    (h : ∀ request ∈ requests, (request.pose tables).1.refusal? = none) :
    requests.filter tables.repeats = requests.filter Request.isFunction := by
  refine List.filter_congr fun request hmem => ?_
  cases request with
  | function name => rfl
  | value name =>
      refine Bool.eq_false_iff.2 fun hrepeats => ?_
      have hanswered := h _ hmem
      rw [refusal?_pose_of_repeats hrepeats] at hanswered
      cases hanswered

end Tables

/-! ## Two evaluations side by side -/

/-- The environment knows the names of the state.  What it has beyond the state is from the
tables. -/
structure Foresees (settled : Environment) (state : EvalState Tables) : Prop where
  names : settled.names = state.environment.names
  given : ∀ name value, settled.value? name = some value →
    state.environment.value? name = some value ∨
      state.resolver.«variables».find? name = some value

/-- What the requests make of a state does not add to what the environment has beyond it. -/
theorem Foresees.of_extends {settled : Environment} {requests : List Request}
    {before after : EvalState Tables} (h : Foresees settled before)
    (hextends : Extends requests before after) : Foresees settled after where
  names := h.names.trans hextends.names.symm
  given := by
    intro name value hvalue
    rw [hextends.resolver_eq]
    exact (h.given name value hvalue).imp_left (hextends.bound name value)

namespace Evaluation

variable {α β : Type}

/-- From a state that the computation leads to values of the environment, it comes to the same in the
environment itself, which it leaves as it is.  The requests are those that would be made again. -/
def Repeats (settled : Environment) (computation : Evaluation Tables α) : Prop :=
  ∀ state, ∃ requests, Extends requests state (computation state).2 ∧
    (Foresees settled state → Agrees settled (computation state).2 → ∀ asked,
      computation { environment := settled, resolver := state.resolver, asked }
        = ((computation state).1,
            { environment := settled, resolver := state.resolver,
              asked := asked ++ requests.filter state.resolver.repeats }))

variable {settled : Environment}

/-- What is the same in all states with the names and the resolver, and makes no requests. -/
theorem repeats_of_forall {computation : Evaluation Tables α}
    (hunchanged : ∀ state, (computation state).2 = state)
    (hresult : ∀ state state', state'.environment.names = state.environment.names →
      (computation state').1 = (computation state).1) : Repeats settled computation := by
  intro state
  refine ⟨[], ?_, fun hforesees _ asked => ?_⟩
  · rw [hunchanged]
    exact .refl state
  · refine Prod.ext (hresult _ _ hforesees.names) ?_
    rw [hunchanged]
    exact congrArg (EvalState.mk settled state.resolver) (List.append_nil asked).symm

theorem Repeats.bind {first : Evaluation Tables α} {next : α → Evaluation Tables β}
    (hfirst : Repeats settled first) (hnext : ∀ value, Repeats settled (next value)) :
    Repeats settled (first >>= next) := by
  intro state
  obtain ⟨requests, hextends, hrepeats⟩ := hfirst state
  rw [bind_apply]
  rcases houtcome : first state with ⟨error | value, middle⟩
  · rw [houtcome] at hextends hrepeats
    refine ⟨requests, hextends, fun hforesees hagrees asked => ?_⟩
    rw [bind_apply, hrepeats hforesees hagrees asked]
  · rw [houtcome] at hextends hrepeats
    obtain ⟨requests', hextends', hrepeats'⟩ := hnext value middle
    refine ⟨requests ++ requests', hextends.trans hextends', fun hforesees hagrees asked => ?_⟩
    have hresolver : middle.resolver = state.resolver := hextends.resolver_eq
    -- What is bound in between is bound in the end, so the environment has it.
    have hmiddle : Agrees settled middle :=
      fun name bound hbound => hagrees name bound (hextends'.bound name bound hbound)
    have hagain := hrepeats' (hforesees.of_extends hextends) hagrees
      (asked ++ requests.filter state.resolver.repeats)
    rw [hresolver] at hagain
    rw [bind_apply, hrepeats hforesees hmiddle asked]
    simp only
    rw [hagain, List.filter_append, List.append_assoc]

theorem repeats_resolve (name : String) :
    Repeats settled (resolve name : Evaluation Tables Float) := by
  intro state
  rcases resolve_cases name state with ⟨value, hbound, hresolve⟩ | ⟨hunknown, hresolve⟩ |
    ⟨answer, resolver, hknown, hunbound, hanswer, hresolve⟩
  · rw [hresolve]
    refine ⟨[], .refl state, fun _ hagrees asked => ?_⟩
    have hsettled : settled.value? name = some value := hagrees name value hbound
    rw [@resolve_of_value? _ _ ⟨settled, state.resolver, asked⟩ _ _ hsettled, List.filter_nil,
      List.append_nil]
  · rw [hresolve]
    refine ⟨[], .refl state, fun hforesees _ asked => ?_⟩
    have hsettled : ¬ settled.isKnown name := by
      rwa [Environment.isKnown_eq_of_names_eq hforesees.names]
    rw [@resolve_of_not_isKnown _ _ ⟨settled, state.resolver, asked⟩ _ hsettled,
      List.filter_nil, List.append_nil]
  · cases hfound : state.resolver.«variables».find? name with
    | some value =>
        -- The first asks and is answered; the second finds the answer.
        have hgiven := Tables.value_of_some hfound
        obtain ⟨rfl, rfl⟩ := Prod.mk.inj (hanswer.symm.trans hgiven)
        rw [hresolve]
        refine ⟨_, extends_of_answered hgiven hknown hunbound, fun _ hagrees asked => ?_⟩
        have hsettled : settled.value? name = some value := by
          refine hagrees name value ?_
          rw [Environment.value?_set, if_pos rfl]
        have honce : state.resolver.repeats (.value name) = false := by
          rw [Tables.repeats, hfound]
          rfl
        rw [@resolve_of_value? _ _ ⟨settled, state.resolver, asked⟩ _ _ hsettled,
          List.filter_cons_of_neg (by rw [honce]; exact Bool.false_ne_true), List.filter_nil,
          List.append_nil]
    | none =>
        -- Both ask, and both are refused.
        have hrefused := Tables.value_of_none hfound
        obtain ⟨rfl, rfl⟩ := Prod.mk.inj (hanswer.symm.trans hrefused)
        rw [hresolve]
        refine ⟨_, extends_of_refused hrefused hunbound, fun hforesees _ asked => ?_⟩
        have hopen : settled.value? name = none := by
          rw [Option.eq_none_iff_forall_ne_some]
          intro value hvalue
          rcases hforesees.given name value hvalue with h | h
          · cases hunbound.symm.trans h
          · cases hfound.symm.trans h
        have hsettled : settled.isKnown name := by
          rw [Environment.isKnown_eq_of_names_eq hforesees.names]
          exact hknown
        have hagain : state.resolver.repeats (.value name) := by
          rw [Tables.repeats, hfound]
          rfl
        rw [@resolve_of_value?_eq_none _ _ ⟨settled, state.resolver, asked⟩ _ hsettled hopen,
          hrefused, List.filter_cons_of_pos hagain, List.filter_nil]

theorem closed_repeats (settled : Environment) :
    Closed fun {α} (computation : Evaluation Tables α) => Repeats settled computation where
  pure := fun _ => repeats_of_forall (fun _ => rfl) fun _ _ _ => rfl
  throw := fun _ _ => repeats_of_forall (fun _ => rfl) fun _ _ _ => rfl
  bind := Repeats.bind
  resolve := repeats_resolve
  askFunction := by
    intro name state
    obtain ⟨requests, hextends⟩ := keeps_extended_askFunction name state
    obtain rfl : [.function name] = requests := List.append_cancel_left hextends.asked
    exact ⟨[.function name], hextends, fun _ _ _ => rfl⟩
  readText := by
    intro text extend
    refine repeats_of_forall (fun state => ?_) fun state state' hnames => ?_
    · rw [readText_apply]
      cases tokenize (extend state.environment.knownNames) text <;> rfl
    · rw [readText_apply, readText_apply, Environment.knownNames_eq_of_names_eq hnames]
      cases tokenize (extend state.environment.knownNames) text <;> rfl

end Evaluation

/-! ## The second evaluation -/

namespace Evaluator

/-- The second evaluation has the result of the first and changes nothing.  It makes the requests of
the first again, but for those for values that were given. -/
theorem evaluate_evaluate (evaluator : Evaluator Tables) :
    evaluator.evaluate.evaluator.evaluate
      = { result := evaluator.evaluate.result
          asked := evaluator.evaluate.asked.filter evaluator.resolver.repeats
          evaluator := evaluator.evaluate.evaluator } := by
  let settled := evaluator.evaluate.evaluator.environment
  let start : EvalState Tables :=
    { environment := evaluator.environment, resolver := evaluator.resolver }
  obtain ⟨requests, hextends, hrepeats⟩ :=
    (Evaluation.closed_repeats settled).evaluateText evaluator.expression start
  obtain rfl : evaluator.evaluate.asked = requests := hextends.asked
  have hforesees : Foresees settled start := {
    names := hextends.names
    given := by
      intro name value hvalue
      cases hbefore : evaluator.environment.value? name with
      | some bound =>
          -- What was bound before has the same value.
          have hsame : settled.value? name = some bound := hextends.bound name bound hbefore
          exact .inl (hsame.symm.trans hvalue)
      | none =>
          exact .inr (Tables.find?_of_mem_exchanges
            ((hextends.answered name value hbefore).1 hvalue)) }
  have hafter : evaluator.evaluate.evaluator
      = { expression := evaluator.expression, environment := settled,
          resolver := evaluator.resolver } :=
    congrArg (Evaluator.mk evaluator.expression settled) hextends.resolver_eq
  have hagain := hrepeats hforesees (fun _ _ h => h) []
  rw [hafter, evaluate, run, hagain]
  rfl

/-- Evaluating again has the same result and changes nothing.  The same functions are asked for in
the same order.  No value is asked for, but that which was refused when it was asked for last. -/
theorem evaluate_again (evaluator : Evaluator Tables) :
    evaluator.evaluate.evaluator.evaluate.result = evaluator.evaluate.result ∧
    evaluator.evaluate.evaluator.evaluate.evaluator = evaluator.evaluate.evaluator ∧
    evaluator.evaluate.evaluator.evaluate.asked.filter Request.isFunction
      = evaluator.evaluate.asked.filter Request.isFunction ∧
    ∀ name, .value name ∈ evaluator.evaluate.evaluator.evaluate.asked →
      ∃ earlier reason,
        evaluator.evaluate.asked = earlier ++ [.value name] ∧
        evaluator.evaluate.result = .error (.unanswered name reason) ∧
        evaluator.evaluate.evaluator.evaluate.asked
          = earlier.filter Request.isFunction ++ [.value name] := by
  rw [evaluate_evaluate]
  refine ⟨rfl, rfl, Tables.filter_isFunction_filter_repeats _ _, ?_⟩
  intro name hname
  obtain ⟨hmem, hrepeats⟩ := List.mem_filter.1 hname
  -- The request is refused, and only the last one of the first evaluation was.
  have hrefused := Tables.refusal?_pose_of_repeats hrepeats
  obtain ⟨-, hreports⟩ := evaluator.reports_evaluate
  rw [Tables.exchanges_eq_map] at hreports
  obtain ⟨refused, reason, hresult⟩ := hreports.exists_of_refusal (List.mem_map_of_mem hmem)
    (by rw [hrefused]; exact Option.some_ne_none _)
  obtain ⟨answered, exchange, hexchanges, hanswered, hexchange, -⟩ :=
    hreports.endsInRefusal hresult
  obtain ⟨earlier, ending, hasked, rfl, hending⟩ := List.map_eq_append_iff.1 hexchanges
  obtain ⟨last, rfl, rfl⟩ := List.map_eq_singleton_iff.1 hending
  have hearlier : ∀ request ∈ earlier, (request.pose evaluator.resolver).1.refusal? = none :=
    fun request hrequest => hanswered _ (List.mem_map_of_mem hrequest)
  obtain rfl : .value name = last := by
    rw [hasked] at hmem
    rcases List.mem_append.1 hmem with hmem | hmem
    · rw [hearlier _ hmem] at hrefused
      cases hrefused
    · exact List.mem_singleton.1 hmem
  rw [hrefused, Option.some.injEq, Prod.mk.injEq] at hexchange
  obtain ⟨rfl, -⟩ := hexchange
  refine ⟨earlier, reason, hasked, hresult, ?_⟩
  rw [hasked, List.filter_append, Tables.filter_repeats_of_answered hearlier,
    List.filter_cons_of_pos hrepeats, List.filter_nil]

/-- The second evaluation does not ask for `x`, which was given, but for `y`, which was refused. -/
theorem evaluate_again_refused :
    (evaluate { expression := "x+f(2)", environment := .resetConventional .initial,
                resolver := ({ «variables» := .ofList [("x", 1)],
                               functions := .ofList [("f", ⟨"t", "t+x+y"⟩)] } : Tables)
              }).evaluator.evaluate.asked = [.function "f", .value "y"] := by
  let evaluator : Evaluator Tables :=
    { expression := "x+f(2)", environment := .resetConventional .initial,
      resolver := { «variables» := .ofList [("x", 1)],
                    functions := .ofList [("f", ⟨"t", "t+x+y"⟩)] } }
  obtain ⟨-, -, -, hrefused⟩ := evaluate_again evaluator
  have hmem : .value "y" ∈ evaluator.evaluate.evaluator.evaluate.asked := by decide +kernel
  obtain ⟨earlier, reason, hasked, -, hagain⟩ := hrefused "y" hmem
  have hfirst : evaluator.evaluate.asked = [.value "x", .function "f", .value "y"] := by
    decide +kernel
  rw [hfirst] at hasked
  obtain ⟨rfl, -⟩ : [.value "x", .function "f"] = earlier ∧ _ := List.append_inj' hasked rfl
  exact hagain

end Evaluator

end Reckoner
