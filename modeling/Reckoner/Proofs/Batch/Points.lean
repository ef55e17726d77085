/-
  Reckoner.Proofs.Batch.Points

  Evaluating at many points with few evaluators (`evaluateChunks_pointwise`).

  An evaluator that goes from point to point finds, at each of them, the environment that a new one
  would find: a new expression opens the three coordinates, they are bound before anything is
  evaluated, and no evaluation has touched any other name (`Environment.Pristine`).  So the values
  do not depend on how the points are cut into chunks, and each is the value of the expression with
  the three coordinates declared and bound as variables, in whichever order.
-/
import Reckoner.Proofs.Batch.Assignments

namespace Reckoner

/-! ## One point -/

/-- The environment in which an expression is evaluated at a point. -/
def Point.environment (point : Point) : Environment :=
  ((Environment.initial.resetConventional.bind "x" point.x).bind "y" point.y).bind "z" point.z

/-- The coordinates by name. -/
def Point.coordinates (point : Point) : List (String × Float) :=
  [("x", point.x), ("y", point.y), ("z", point.z)]

/-- In the environment of a point the coordinates are bound, and nothing else but the constants. -/
theorem Point.find?_environment (point : Point) :
    (∀ entry ∈ point.coordinates,
      point.environment.entries.find? entry.1 = some (some entry.2)) ∧
    ∀ name, name ∉ Environment.conventional →
      point.environment.entries.find? name
        = Environment.initial.resetConventional.entries.find? name := by
  have hopen (name : String) (hname : name ∈ Environment.conventional) :
      Environment.initial.resetConventional.isKnown name := by
    rw [Environment.isKnown_iff, Environment.find?_resetConventional_of_mem hname]
    simp
  have hknown {environment : Environment} {name : String} (h : environment.isKnown name)
      (bound : String) (value : Float) : (environment.bind bound value).isKnown name := by
    by_cases hbound : environment.isKnown bound
    · rw [Environment.isKnown_iff, Environment.find?_bind hbound]
      split
      · simp
      · exact Environment.isKnown_iff.1 h
    · rwa [Environment.bind, if_neg hbound]
  have hx := hopen "x" (by decide)
  have hy := hknown (hopen "y" (by decide)) "x" point.x
  have hz := hknown (hknown (hopen "z" (by decide)) "x" point.x) "y" point.y
  refine ⟨?_, fun name hname => ?_⟩
  · simp [coordinates, environment, Environment.find?_bind hx, Environment.find?_bind hy,
      Environment.find?_bind hz]
  · simp only [Environment.conventional, List.mem_cons, List.not_mem_nil, or_false, not_or]
      at hname
    rw [environment, Environment.find?_bind hz, Environment.find?_bind hy,
      Environment.find?_bind hx, if_neg hname.2.2, if_neg hname.2.1, if_neg hname.1]

namespace Evaluator

/-- A new evaluator at a point. -/
def atPoint (expression : String) (point : Point) : Evaluator Silent :=
  { expression, environment := point.environment, resolver := {} }

/-- An evaluator without a past evaluates as a new one, and is left without a past. -/
theorem evaluateAt_eq {evaluator : Evaluator Silent} (h : evaluator.environment.Pristine)
    (expression : String) (point : Point) :
    evaluator.evaluateAt expression point = (atPoint expression point).evaluate := by
  have henvironment : evaluator.environment.resetConventional
      = Environment.initial.resetConventional := h.resetConventional_eq
  simp only [evaluateAt, setExpression, setVariable, henvironment]
  rfl

theorem pristine_evaluateAt {evaluator : Evaluator Silent} (h : evaluator.environment.Pristine)
    (expression : String) (point : Point) :
    (evaluator.evaluateAt expression point).evaluator.environment.Pristine := by
  rw [evaluateAt_eq h]
  refine .evaluate ?_
  exact (((Environment.Pristine.initial.resetConventional.bind (by decide) _).bind
    (by decide) _).bind (by decide) _)

/-- A chunk is evaluated point by point. -/
theorem evaluateChunk_eq_map {evaluator : Evaluator Silent}
    (h : evaluator.environment.Pristine) (expression : String) (points : List Point) :
    evaluator.evaluateChunk expression points
      = points.map fun point => (atPoint expression point).evaluate.result := by
  induction points generalizing evaluator with
  | nil => rfl
  | cons point rest ih =>
      rw [evaluateChunk, ih (pristine_evaluateAt h expression point), evaluateAt_eq h,
        List.map_cons]

end Evaluator

/-- With the coordinates as variables, an expression is evaluated as at the point. -/
theorem evaluateExpression_of_perm (expression : String) {point : Point}
    {values : List (String × Float)} (hvalues : values.Perm point.coordinates) :
    evaluateExpression expression values
      = (Evaluator.atPoint expression point).evaluate.result := by
  have hnames := hvalues.map Prod.fst
  have hidentifiers : ∀ entry ∈ values, isIdentifier entry.1 := by
    have hconventional : ∀ name ∈ Environment.conventional, isIdentifier name := by decide +kernel
    exact fun entry hentry =>
      hconventional _ (hnames.mem_iff.1 (List.mem_map_of_mem (f := Prod.fst) hentry))
  have hdistinct : (values.map Prod.fst).Nodup := by
    rw [hnames.nodup_iff]
    show Environment.conventional.Nodup
    decide
  obtain ⟨environment, hset, hothers, hresult⟩ :=
    exists_evaluateExpression_eq expression hidentifiers hdistinct
  -- Whatever the order, the same entries have the same values in the end.
  have henvironment : environment = point.environment := by
    refine Environment.ext_find? fun name => ?_
    by_cases hname : name ∈ values.map Prod.fst
    · obtain ⟨entry, hentry, rfl⟩ := List.mem_map.1 hname
      rw [hset entry hentry, point.find?_environment.1 entry (hvalues.mem_iff.1 hentry)]
    · rw [hothers name hname, point.find?_environment.2 name fun h => hname (hnames.mem_iff.2 h)]
  rw [hresult, henvironment]
  rfl

/-! ## Many points -/

/-- However the points are cut into chunks, the value found at each is that of the expression with
the coordinates as its variables, declared and bound in any order. -/
theorem evaluateChunks_pointwise (expression : String) {points : List Point}
    {chunks : List (List Point)} (hchunks : chunks.flatten = points) :
    evaluateChunks expression chunks = evaluatePoints expression points ∧
    (evaluateChunks expression chunks).length = points.length ∧
    ∀ (i : Nat) (point : Point) (values : List (String × Float)), points[i]? = some point →
      values.Perm [("x", point.x), ("y", point.y), ("z", point.z)] →
      (evaluateChunks expression chunks)[i]? = some (evaluateExpression expression values) := by
  have hchunk := @Evaluator.evaluateChunk_eq_map { resolver := {} } .initial expression
  have hall : evaluateChunks expression chunks
      = points.map fun point => (Evaluator.atPoint expression point).evaluate.result := by
    rw [evaluateChunks, ← hchunks, List.map_flatten, ← List.flatMap_def]
    exact congrArg (List.flatMap · chunks) (funext hchunk)
  have hpoints : evaluatePoints expression points
      = points.map fun point => (Evaluator.atPoint expression point).evaluate.result := by
    rw [evaluatePoints, evaluateChunks, List.flatMap_singleton, hchunk]
  refine ⟨hall.trans hpoints.symm, by rw [hall, List.length_map], ?_⟩
  intro i point values hpoint hvalues
  rw [hall, List.getElem?_map, hpoint, Option.map_some,
    evaluateExpression_of_perm expression hvalues]

/-- The last point is the second of its chunk, and its coordinates are bound from the last on. -/
theorem evaluateChunks_pointwise_of_three :
    (evaluateChunks "x-y/z" [[⟨1, 2, 3⟩], [⟨4, 5, 0⟩, ⟨6, 8, 2⟩]])[2]?
      = some (evaluateExpression "x-y/z" [("z", 2), ("y", 8), ("x", 6)]) := by
  refine (evaluateChunks_pointwise "x-y/z" rfl).2.2 2 ⟨6, 8, 2⟩ _ rfl ?_
  exact List.reverse_perm [("x", 6), ("y", 8), ("z", 2)]

end Reckoner
