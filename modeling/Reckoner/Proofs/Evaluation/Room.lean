/-
  Reckoner.Proofs.Evaluation.Room

  The nesting limit ends evaluations and does nothing else (`sameUnlessLimited_evaluateTokens`, and
  for the descent `Descent.outcomeAt_of_depth_le`).

  How much room there is for open factors is looked at where a factor is entered and where a
  function is applied, and in both places an evaluation ends if there is too little.  So an
  evaluation that does not end there is the same with more room: it has the same result, makes the
  same requests and leaves the same environment.  A body has the room that the applications around
  it leave; it could as well have all of it.
-/
import Reckoner.Proofs.Descent.Agreement

namespace Reckoner

namespace Evaluation

variable {ρ α β : Type}

/-! ## The same unless it meets the limit -/

/-- Where the first computation does not meet the nesting limit, the second is the same. -/
def SameUnlessLimited (first second : Evaluation ρ α) : Prop :=
  ∀ state, (first state).1 ≠ .error (.nestingLimit nestingLimit) → second state = first state

theorem sameUnlessLimited_refl (computation : Evaluation ρ α) :
    SameUnlessLimited computation computation :=
  fun _ _ => rfl

/-- A computation that meets the nesting limit is the same as any. -/
theorem sameUnlessLimited_of_limit (second : Evaluation ρ α) :
    SameUnlessLimited (throw (.nestingLimit nestingLimit)) second :=
  fun _ hlimit => absurd rfl hlimit

/-- What is done with enough room is done with more. -/
theorem sameUnlessLimited_of_room {room room' opened : Nat} (hroom : room ≤ room')
    {first second : Evaluation ρ α} (h : opened < room → SameUnlessLimited first second) :
    SameUnlessLimited (if opened < room then first else throw (.nestingLimit nestingLimit))
      (if opened < room' then second else throw (.nestingLimit nestingLimit)) := by
  by_cases hopened : opened < room
  · rw [if_pos hopened, if_pos (Nat.lt_of_lt_of_le hopened hroom)]
    exact h hopened
  · rw [if_neg hopened]
    exact sameUnlessLimited_of_limit _

theorem SameUnlessLimited.bind {first first' : Evaluation ρ α} {next next' : α → Evaluation ρ β}
    (hfirst : SameUnlessLimited first first')
    (hnext : ∀ value, SameUnlessLimited (next value) (next' value)) :
    SameUnlessLimited (first >>= next) (first' >>= next') := by
  intro state hlimit
  rw [bind_apply] at hlimit
  rw [bind_apply, bind_apply]
  rcases houtcome : first state with ⟨error | value, middle⟩
  · have herror : (first state).1 ≠ .error (.nestingLimit nestingLimit) := by
      rw [houtcome] at hlimit ⊢
      rintro ⟨⟩
      exact hlimit rfl
    rw [hfirst state herror, houtcome]
  · rw [houtcome] at hlimit
    rw [hfirst state (by rw [houtcome]; exact nofun), houtcome]
    exact hnext value middle hlimit

theorem sameUnlessLimited_foldlM {step step' : β → α → Evaluation ρ β}
    (hstep : ∀ value item, SameUnlessLimited (step value item) (step' value item))
    (items : List α) (value : β) :
    SameUnlessLimited (items.foldlM step value) (items.foldlM step' value) := by
  induction items generalizing value with
  | nil => exact sameUnlessLimited_refl _
  | cons item items ih => exact (hstep value item).bind ih

/-! ## With more room -/

section Room

variable [Resolver ρ] {room room' : Nat}

theorem sameUnlessLimited_applyFunction {evaluate evaluate' : TokenSequence → Evaluation ρ Float}
    (hevaluate : ∀ tokens, SameUnlessLimited (evaluate tokens) (evaluate' tokens)) (name : String)
    (argument : Float) :
    SameUnlessLimited (applyFunction evaluate name argument)
      (applyFunction evaluate' name argument) := by
  rw [applyFunction, applyFunction]
  cases BuiltIn.ofName? name with
  | some function => exact sameUnlessLimited_refl _
  | none =>
      refine (sameUnlessLimited_refl _).bind fun function => ?_
      split
      · exact (sameUnlessLimited_refl _).bind fun tokens => hevaluate _
      · exact sameUnlessLimited_refl _

/-- With more room all steps are the same, if the applications are. -/
theorem sameUnlessLimited_takeStep (hroom : room ≤ room')
    {apply apply' : Nat → String → Float → Evaluation ρ Float}
    (happly : ∀ opened name argument,
      SameUnlessLimited (apply opened name argument) (apply' opened name argument))
    (stack : List Float) (step : Step) :
    SameUnlessLimited (takeStep room apply stack step) (takeStep room' apply' stack step) := by
  cases step with
  | enter opened => exact sameUnlessLimited_of_room hroom fun _ => sameUnlessLimited_refl _
  | literal | load | negate | combine => exact sameUnlessLimited_refl _
  | apply name opened =>
      cases stack with
      | nil => exact sameUnlessLimited_refl _
      | cons argument stack =>
          exact (happly opened name argument).bind fun _ => sameUnlessLimited_refl _

/-- With more room a token sequence is evaluated in the same way, unless it meets the limit with
less. -/
theorem sameUnlessLimited_evaluateTokens (hroom : room ≤ room') (tokens : TokenSequence) :
    SameUnlessLimited (evaluateTokens room tokens : Evaluation ρ Float)
      (evaluateTokens room' tokens) := by
  -- A body has less room than the application it belongs to, and on both sides by the same.
  induction room using Nat.strongRecOn generalizing room' tokens with
  | ind room ih =>
      rw [evaluateTokens, evaluateTokens]
      refine (sameUnlessLimited_refl _).bind fun _ => ?_
      refine (sameUnlessLimited_foldlM (sameUnlessLimited_takeStep hroom ?_) _ []).bind fun stack =>
        sameUnlessLimited_refl _
      intro opened name argument
      refine sameUnlessLimited_of_room hroom fun hopened => ?_
      exact sameUnlessLimited_applyFunction (fun tokens => ih _ (by omega) (by omega) tokens) name
        argument

end Room

end Evaluation

/-! ## The counter of a descent -/

namespace Descent

variable {ρ : Type} [Resolver ρ]

/-- What the evaluation of a token sequence by descent comes to if the counter is at `depth` when it
begins: its result, and the state that it leaves. -/
noncomputable def outcomeAt (depth : Nat) (callers : List Call) (tokens : TokenSequence)
    (state : EvalState ρ) : Option (Except EvalError Float × EvalState ρ) :=
  (perform callers .sequence { tokens := tokens.toList } { state with depth }).map
    fun (result, after) => (result.map Prod.fst, after.toEvalState)

/-- The counter stands for the room that it leaves. -/
theorem outcomeAt_eq (depth : Nat) (callers : List Call) (tokens : TokenSequence)
    (state : EvalState ρ) :
    outcomeAt depth callers tokens state
      = some (Evaluation.evaluateTokens (nestingLimit - depth) tokens state) := by
  have hcontract : Contract depth .sequence { tokens := tokens.toList }
      (Evaluation.evaluateTokens (nestingLimit - depth) tokens : Evaluation ρ Float)
      fun outcome left => left = pure outcome.1 := .sequence rfl
  obtain ⟨result, after, hrun, -, hresult⟩ :=
    follows_of_contract hcontract callers { state with depth } rfl
  rw [outcomeAt, hrun]
  rcases result with error | outcome
  · exact congrArg some hresult.symm
  · obtain ⟨left, rfl, heq⟩ := hresult
    exact congrArg some heq.symm

end Descent

/-- The nesting limit never changes what an evaluation comes to, it only ends evaluations.  If a
token sequence, evaluated with the counter of open factors at some depth, comes to anything but the
nesting limit, then it comes to the same, with the same requests and the same environment, at
every smaller depth.  So a body that is evaluated inside other factors comes to what it would have
come to on its own. -/
theorem Descent.outcomeAt_of_depth_le {ρ : Type} [Resolver ρ] (tokens : TokenSequence)
    (state : EvalState ρ) {depth depth' : Nat} (hdepth : depth' ≤ depth)
    {result : Except EvalError Float} (hlimit : result ≠ .error (.nestingLimit nestingLimit))
    (after : EvalState ρ) (callers : List Descent.Call)
    (hresult : Descent.outcomeAt depth callers tokens state = some (result, after)) :
    (∀ callers', Descent.outcomeAt depth' callers' tokens state = some (result, after)) ∧
      Evaluation.evaluateTokens (nestingLimit - depth') tokens state = (result, after) ∧
      Evaluation.evaluateTokens nestingLimit tokens state = (result, after) := by
  rw [outcomeAt_eq, Option.some_inj] at hresult
  have hroom (room : Nat) (hroom : nestingLimit - depth ≤ room) :
      Evaluation.evaluateTokens room tokens state = (result, after) := by
    rw [Evaluation.sameUnlessLimited_evaluateTokens hroom tokens state (by rwa [hresult]), hresult]
  have hsame := hroom (nestingLimit - depth') (Nat.sub_le_sub_left hdepth _)
  exact ⟨fun callers' => by rw [outcomeAt_eq, hsame], hsame, hroom _ (Nat.sub_le _ _)⟩

/-- What is evaluated inside 125 open factors needs the three that are left, and comes to the same
inside 100. -/
theorem Descent.outcomeAt_of_three_left :
    ∃ after : EvalState Tables,
      Descent.outcomeAt 100 []
          { body := [⟨.functionName, "f", 0⟩, ⟨.leftParen, "(", 1⟩, ⟨.variableName, "x", 2⟩,
              ⟨.rightParen, ")", 3⟩]
            endPosition := 4
            body_kind := by decide }
          { environment := .resetConventional .initial
            resolver := { «variables» := .ofList [("x", 1), ("y", 2)],
                          functions := .ofList [("f", ⟨"t", "y"⟩)] } }
        = some (.ok 2, after) ∧
      after.asked = [.value "x", .function "f", .value "y"] := by
  let tokens : TokenSequence :=
    { body := [⟨.functionName, "f", 0⟩, ⟨.leftParen, "(", 1⟩, ⟨.variableName, "x", 2⟩,
        ⟨.rightParen, ")", 3⟩]
      endPosition := 4
      body_kind := by decide }
  let state : EvalState Tables :=
    { environment := .resetConventional .initial
      resolver := { «variables» := .ofList [("x", 1), ("y", 2)],
                    functions := .ofList [("f", ⟨"t", "y"⟩)] } }
  let inside : Except EvalError Float × EvalState Tables :=
    Evaluation.evaluateTokens (nestingLimit - 125) tokens state
  have hvalue : inside.1 = .ok 2 := by decide +kernel
  have hinside : Descent.outcomeAt 125 [] tokens state = some (.ok 2, inside.2) := by
    rw [Descent.outcomeAt_eq, ← hvalue]
    rfl
  have hdepth : 100 ≤ 125 := by decide
  have hlimit : Except.ok (2 : Float) ≠ .error (EvalError.nestingLimit nestingLimit) := nofun
  obtain ⟨houtside, -, -⟩ :=
    Descent.outcomeAt_of_depth_le tokens state hdepth hlimit inside.2 [] hinside
  exact ⟨inside.2, houtside [], by decide +kernel⟩

end Reckoner
