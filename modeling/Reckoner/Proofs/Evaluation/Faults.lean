/-
  Reckoner.Proofs.Evaluation.Faults

  What an expression that has no value is blamed for.

  Where every variable is bound and every function built in, an evaluation that gives no value
  ends in one of two errors (`Evaluator.evaluate_fault`).  Either it names the first token with
  which the tokens are no beginning of an expression, or a factor has to begin where the most
  factors allowed are open, at a token that is not after that one and has not been looked at.

  The steps that such an evaluation takes change nothing.  So what becomes of them is decided by
  the factors they enter (`exists_foldlM_takeStep`, `foldlM_takeStep_of_enter`), and those are the
  factors that have to begin at some place.
-/
import Mathlib.Logic.Basic
import Reckoner.Proofs.Evaluation.Sentences
import Reckoner.Proofs.Syntax.Prefixes

namespace Reckoner

open Reckoner.Frame Program

/-! ## Steps about which nobody has to be asked -/

namespace Step

/-- Nobody has to be asked about the step. -/
def Settled (environment : Environment) : Step → Prop
  | .load name => environment.isBound name
  | .apply name _ => (BuiltIn.ofName? name).isSome
  | .enter _ | .literal _ | .negate | .combine _ => True

/-- The step keeps within the room. -/
def Within (room : Nat) : Step → Prop
  | .enter opened | .apply _ opened => opened < room
  | .literal _ | .load _ | .negate | .combine _ => True

end Step

/-- If nobody has to be asked about the tokens, nobody has to be asked about the steps. -/
theorem Program.settled_of_mem_steps {environment : Environment} {tokens : TokenSequence}
    (hsettled : ∀ token ∈ tokens.body, token.Settled environment) :
    ∀ step ∈ (ofTokens tokens).steps, step.Settled environment := by
  intro step hstep
  cases step with
  | load name =>
      obtain ⟨token, htoken, hkind, rfl⟩ := exists_of_load_mem_steps hstep
      exact (hsettled token htoken).1 hkind
  | apply function opened =>
      obtain ⟨⟨token, htoken, hkind, rfl⟩, -⟩ := exists_of_apply_mem_steps hstep
      exact (hsettled token htoken).2 hkind
  | enter | literal | negate | combine => trivial

/-- If all factors that are entered keep within the room, so do the applications around them. -/
theorem Program.within_of_mem_steps {room : Nat} {tokens : TokenSequence}
    (hroom : ∀ opened, .enter opened ∈ (ofTokens tokens).steps → opened < room) :
    ∀ step ∈ (ofTokens tokens).steps, step.Within room := by
  intro step hstep
  cases step with
  | enter opened => exact hroom opened hstep
  | apply function opened =>
      obtain ⟨-, inner, hlt, hinner⟩ := exists_of_apply_mem_steps hstep
      exact Nat.lt_trans hlt (hroom inner hinner)
  | load | literal | negate | combine => trivial

namespace Evaluation

variable {ρ : Type} [Resolver ρ] {room : Nat} {state : EvalState ρ}

/-- What an evaluation applies inside a number of open factors. -/
def applyWithin (room opened : Nat) (name : String) (argument : Float) : Evaluation ρ Float :=
  if opened < room then applyFunction (evaluateTokens (room - (opened + 1))) name argument
  else throw (.nestingLimit nestingLimit)

theorem applyWithin_of_builtIn {opened : Nat} {name : String} {function : BuiltIn}
    (hname : BuiltIn.ofName? name = some function) (argument : Float) :
    applyWithin room opened name argument state
      = if opened < room then (.ok (function.apply argument), state)
        else (.error (.nestingLimit nestingLimit), state) := by
  rw [applyWithin]
  by_cases hroom : opened < room
  · rw [if_pos hroom, if_pos hroom, applyFunction, hname]
    rfl
  · rw [if_neg hroom, if_neg hroom]
    rfl

/-- A step within the room is taken and changes nothing. -/
theorem exists_takeStep {step : Step} (hsettled : step.Settled state.environment)
    (hwithin : step.Within room) (stack : List Float) :
    ∃ stack', takeStep room (applyWithin room) stack step state = (.ok stack', state) := by
  cases step with
  | enter opened =>
      rw [takeStep, if_pos (show opened < room from hwithin)]
      exact ⟨stack, rfl⟩
  | literal value => exact ⟨_, rfl⟩
  | load name =>
      obtain ⟨value, hvalue⟩ := Option.isSome_iff_exists.1 hsettled
      rw [takeStep, bind_apply, resolve_of_value? hvalue]
      exact ⟨_, rfl⟩
  | negate => cases stack <;> exact ⟨_, rfl⟩
  | combine operator => rcases stack with _ | ⟨right, _ | ⟨left, stack⟩⟩ <;> exact ⟨_, rfl⟩
  | apply function opened =>
      obtain ⟨builtIn, hbuiltIn⟩ := Option.isSome_iff_exists.1 hsettled
      cases stack with
      | nil => exact ⟨_, rfl⟩
      | cons argument stack =>
          rw [takeStep, bind_apply, applyWithin_of_builtIn hbuiltIn,
            if_pos (show opened < room from hwithin)]
          exact ⟨_, rfl⟩

/-- Any step is taken and changes nothing, or it meets the limit. -/
theorem takeStep_cases {step : Step} (hsettled : step.Settled state.environment)
    (stack : List Float) :
    (∃ stack', takeStep room (applyWithin room) stack step state = (.ok stack', state)) ∨
      takeStep room (applyWithin room) stack step state
        = (.error (.nestingLimit nestingLimit), state) := by
  by_cases hwithin : step.Within room
  · exact .inl (exists_takeStep hsettled hwithin stack)
  · cases step with
    | enter opened =>
        rw [takeStep, if_neg (show ¬ opened < room from hwithin)]
        exact .inr rfl
    | apply function opened =>
        obtain ⟨builtIn, hbuiltIn⟩ := Option.isSome_iff_exists.1 hsettled
        cases stack with
        | nil => exact .inl ⟨_, rfl⟩
        | cons argument stack =>
            rw [takeStep, bind_apply, applyWithin_of_builtIn hbuiltIn,
              if_neg (show ¬ opened < room from hwithin)]
            exact .inr rfl
    | literal | load | negate | combine => exact absurd trivial hwithin

theorem exists_foldlM_takeStep {steps : List Step}
    (hsettled : ∀ step ∈ steps, step.Settled state.environment)
    (hwithin : ∀ step ∈ steps, step.Within room) (stack : List Float) :
    ∃ stack', steps.foldlM (takeStep room (applyWithin room)) stack state
      = (.ok stack', state) := by
  induction steps generalizing stack with
  | nil => exact ⟨stack, rfl⟩
  | cons step rest ih =>
      rw [List.forall_mem_cons] at hsettled hwithin
      obtain ⟨stack', hstep⟩ := exists_takeStep hsettled.1 hwithin.1 stack
      rw [List.foldlM_cons, bind_apply, hstep]
      exact ih hsettled.2 hwithin.2 stack'

/-- A factor that is entered beyond the room ends the evaluation, whatever would come after it. -/
theorem foldlM_takeStep_of_enter {steps : List Step} {opened : Nat}
    (hsettled : ∀ step ∈ steps, step.Settled state.environment) (hopened : room ≤ opened)
    (more : List Step) (stack : List Float) :
    (steps ++ .enter opened :: more).foldlM (takeStep room (applyWithin room)) stack state
      = (.error (.nestingLimit nestingLimit), state) := by
  induction steps generalizing stack with
  | nil =>
      rw [List.nil_append, foldlM_takeStep_enter, if_neg (Nat.not_lt.2 hopened)]
  | cons step rest ih =>
      rw [List.forall_mem_cons] at hsettled
      rw [List.cons_append, List.foldlM_cons, bind_apply]
      rcases takeStep_cases hsettled.1 stack with ⟨stack', hstep⟩ | hstep
      · rw [hstep]
        exact ih hsettled.2 stack'
      · rw [hstep]

/-! ## Token sequences -/

variable {tokens : TokenSequence}

/-- Where all variables are bound, evaluating tokens is running their program. -/
theorem evaluateTokens_of_isBound
    (hbound : ∀ token ∈ tokens.body, token.kind = .variableName →
      state.environment.isBound token.text) :
    evaluateTokens room tokens state
      = runProgram room (applyWithin room) (ofTokens tokens) state := by
  rw [evaluateTokens, bind_apply, bindVariables_of_isBound hbound]
  rfl

/-- Within the room the offending token decides. -/
theorem evaluateTokens_of_within
    (hsettled : ∀ token ∈ tokens.body, token.Settled state.environment)
    (hroom : ∀ opened, .enter opened ∈ (ofTokens tokens).steps → opened < room) :
    match (ofTokens tokens).offending with
    | some token =>
      evaluateTokens room tokens state
        = (.error (.unexpectedToken token.describe token.position), state)
    | none => ∃ value, evaluateTokens room tokens state = (.ok value, state) := by
  obtain ⟨stack, hstack⟩ := exists_foldlM_takeStep (settled_of_mem_steps hsettled)
    (within_of_mem_steps hroom) []
  rw [evaluateTokens_of_isBound fun token htoken => (hsettled token htoken).1, runProgram,
    bind_apply, hstack]
  cases (ofTokens tokens).offending with
  | some token => rfl
  | none => exact ⟨_, rfl⟩

/-- Where a factor has to begin beyond the room, the tokens from there on make no difference. -/
theorem evaluateTokens_of_awaits {others : TokenSequence} {place : Nat} {frames : List Frame}
    (hreadable : ∀ token ∈ tokens.body, token.Readable)
    (hsettled : ∀ token ∈ tokens.body, token.Settled state.environment)
    (hawaits : Awaits .factor (tokens.body.take place) frames)
    (hopened : room ≤ opened frames) (hpos : 0 < opened frames)
    (hsame : others.body.take place = tokens.body.take place)
    (hbound : ∀ token ∈ others.body, token.kind = .variableName →
      state.environment.isBound token.text) :
    evaluateTokens room others state = (.error (.nestingLimit nestingLimit), state) := by
  -- Neither sequence is empty, since factors are open before the place.
  have hlength := hawaits.opened_le_length
  have hne : tokens.body ≠ [] := by
    intro hnil
    rw [hnil, List.take_nil, List.length_nil] at hlength
    omega
  have hothers : others.body ≠ [] := by
    intro hnil
    rw [← hsame, hnil, List.take_nil, List.length_nil] at hlength
    omega
  obtain ⟨steps, hsteps⟩ := exists_steps_of_awaits hreadable hawaits
  obtain ⟨program, hprogram⟩ := hsteps tokens hne rfl
  obtain ⟨program', hprogram'⟩ := hsteps others hothers hsame
  have hall := settled_of_mem_steps hsettled
  rw [hprogram] at hall
  have hfirst : ∀ step ∈ steps, step.Settled state.environment :=
    fun step hstep => hall step (List.mem_append_left _ (List.mem_append_left _ hstep))
  rw [evaluateTokens_of_isBound hbound, runProgram, bind_apply, hprogram', prepend,
    List.append_assoc, List.singleton_append, foldlM_takeStep_of_enter hfirst hopened]

end Evaluation

/-! ## The two errors -/

namespace Evaluator

variable {ρ : Type} [Resolver ρ]

/-- The evaluation is blamed on the token at the place, the first one with which the tokens are no
beginning of an expression, and up to there it never had to begin a factor where the most factors
allowed are open. -/
structure BlamesToken (evaluator : Evaluator ρ) (tokens : TokenSequence) (place : Nat)
    (token : Token) : Prop where
  first : FirstFault tokens.toList place
  found : tokens.toList[place]? = some token
  result : evaluator.evaluate.result = .error (.unexpectedToken
    (if token.kind = .endOfInput then "end of input" else token.text) token.position)
  room : ∀ before frames, before ≤ place → Awaits .factor (tokens.body.take before) frames →
    opened frames < nestingLimit

/-- The evaluation ends where it has to begin a factor while the most factors allowed are open.
The place is not after the first fault, if there is one, and what is there and after it has not
been looked at: other tokens make no difference, if their variables are bound. -/
structure MeetsLimit (evaluator : Evaluator ρ) (tokens : TokenSequence) (place : Nat)
    (frames : List Frame) : Prop where
  le : place ≤ tokens.body.length
  awaits : Awaits .factor (tokens.body.take place) frames
  opened : opened frames = nestingLimit
  result : evaluator.evaluate.result = .error (.nestingLimit nestingLimit)
  before : (∃ fault, FirstFault tokens.toList fault ∧ place ≤ fault) ∨
    ∃ tree, Sentence tokens.body tree
  unseen : ∀ others : TokenSequence, others.body.take place = tokens.body.take place →
    (∀ token ∈ others.body, token.kind = .variableName →
      evaluator.environment.isBound token.text) →
    (evaluator.run (Evaluation.evaluateTokens nestingLimit others)).result
      = .error (.nestingLimit nestingLimit)

end Evaluator

/-- A place where a factor has to begin is not after the first fault. -/
theorem FirstFault.le_of_awaits {tokens : TokenSequence} {fault place : Nat} {frames : List Frame}
    (hfault : FirstFault tokens.toList fault) (hplace : place ≤ tokens.body.length)
    (hawaits : Awaits .factor (tokens.body.take place) frames) : place ≤ fault := by
  by_contra hlt
  refine hfault.fault (hawaits.viable.of_prefix ?_)
  have htake : tokens.toList.take place = tokens.body.take place := by
    rw [TokenSequence.toList, List.take_append_of_le_length hplace]
  rw [← htake]
  exact List.take_prefix_take_left (by omega)

/-- If a factor is entered beyond the limit, another has to begin just at the limit. -/
theorem Program.exists_awaits_of_nestingLimit_le {tokens : TokenSequence} {number : Nat}
    (hreadable : ∀ token ∈ tokens.body, token.Readable)
    (henter : .enter number ∈ (ofTokens tokens).steps) (hnumber : nestingLimit ≤ number) :
    ∃ place frames, place ≤ tokens.body.length ∧
      Awaits .factor (tokens.body.take place) frames ∧ opened frames = nestingLimit := by
  obtain ⟨place, frames, hplace, hawaits, rfl⟩ := exists_awaits_of_enter hreadable henter
  by_cases heq : opened frames = nestingLimit
  · exact ⟨place, frames, hplace, hawaits, heq⟩
  · obtain ⟨before, frames', hbefore, hawaits', hopened⟩ :=
      @Awaits.exists_opened_eq _ _ _ nestingLimit hawaits (by omega)
    have hbody := hbefore.trans (List.take_prefix place tokens.body)
    rw [List.prefix_iff_eq_take.1 hbody] at hawaits'
    exact ⟨before.length, frames', hbody.length_le, hawaits', hopened⟩

namespace Evaluator

theorem tokenize_of_eq_ok {ρ : Type} {evaluator : Evaluator ρ} {tokens : TokenSequence}
    {text : String} (h : evaluator.tokenize text = .ok tokens) :
    Reckoner.tokenize evaluator.environment.knownNames text = .ok tokens := by
  rw [tokenize] at h
  split at h
  · next read hread => rw [hread, Except.ok.inj h]
  · cases h

variable {ρ : Type} [Resolver ρ] {evaluator : Evaluator ρ} {tokens : TokenSequence}

theorem result_evaluate (hlexed : evaluator.tokenize evaluator.expression = .ok tokens) :
    evaluator.evaluate.result
      = (evaluator.run (Evaluation.evaluateTokens nestingLimit tokens)).result := by
  rw [evaluate, run, run, Evaluation.evaluateText_of_tokenize (tokenize_of_eq_ok hlexed)]

/-- If no factor is entered at the limit, the program ends with its offending token. -/
theorem exists_blamesToken (hlexed : evaluator.tokenize evaluator.expression = .ok tokens)
    (hsettled : ∀ token ∈ tokens.body, token.Settled evaluator.environment)
    (hfails : ∀ value, evaluator.evaluate.result ≠ .ok value)
    (hroom : ∀ number, .enter number ∈ (ofTokens tokens).steps → number < nestingLimit) :
    ∃ place token, evaluator.BlamesToken tokens place token := by
  have hreadable := readable_of_tokenize (tokenize_of_eq_ok hlexed)
  have hresult := result_evaluate hlexed
  have hwithin := @Evaluation.evaluateTokens_of_within ρ _ nestingLimit
    { environment := evaluator.environment, resolver := evaluator.resolver } tokens hsettled hroom
  cases hoffending : (ofTokens tokens).offending with
  | none =>
      rw [hoffending] at hwithin
      obtain ⟨value, hvalue⟩ := hwithin
      rw [run, hvalue] at hresult
      exact absurd hresult (hfails value)
  | some token =>
      rw [hoffending] at hwithin
      simp only at hwithin
      rw [run, hwithin] at hresult
      obtain ⟨place, hfirst, hfound⟩ := firstFault_of_offending hreadable hoffending
      have hne : tokens.body ≠ [] := by
        intro hnil
        rw [ofTokens, hnil] at hoffending
        cases hoffending
      refine ⟨place, token, hfirst, hfound, hresult, fun before frames _ hawaits => ?_⟩
      -- Where a factor has to begin, one is entered.
      obtain ⟨steps, hsteps⟩ := exists_steps_of_awaits hreadable hawaits
      obtain ⟨program, hprogram⟩ := hsteps tokens hne rfl
      refine hroom _ ?_
      rw [hprogram]
      exact List.mem_append_left _ (List.mem_append_right _ List.mem_cons_self)

/-- If a factor is entered at the limit or beyond it, the limit is met where one has to begin. -/
theorem exists_meetsLimit {number : Nat}
    (hlexed : evaluator.tokenize evaluator.expression = .ok tokens)
    (hsettled : ∀ token ∈ tokens.body, token.Settled evaluator.environment)
    (henter : .enter number ∈ (ofTokens tokens).steps) (hnumber : nestingLimit ≤ number) :
    ∃ place frames, evaluator.MeetsLimit tokens place frames := by
  have hreadable := readable_of_tokenize (tokenize_of_eq_ok hlexed)
  obtain ⟨place, frames, hplace, hawaits, hopened⟩ :=
    exists_awaits_of_nestingLimit_le hreadable henter hnumber
  have hpos : 0 < opened frames := by
    rw [hopened]
    decide
  -- What the evaluation does up to the place is decided by the tokens before it.
  have hunseen : ∀ others : TokenSequence, others.body.take place = tokens.body.take place →
      (∀ token ∈ others.body, token.kind = .variableName →
        evaluator.environment.isBound token.text) →
      (evaluator.run (Evaluation.evaluateTokens nestingLimit others)).result
        = .error (.nestingLimit nestingLimit) := by
    intro others hsame hbound
    rw [run, Evaluation.evaluateTokens_of_awaits hreadable hsettled hawaits
      (Nat.le_of_eq hopened.symm) hpos hsame hbound]
  have hresult := hunseen tokens rfl fun token htoken => (hsettled token htoken).1
  rw [← result_evaluate hlexed] at hresult
  refine ⟨place, frames, hplace, hawaits, hopened, hresult, ?_, hunseen⟩
  cases hoffending : (ofTokens tokens).offending with
  | none => exact .inr (exists_sentence_of_offending_eq_none hoffending)
  | some token =>
      obtain ⟨fault, hfirst, -⟩ := firstFault_of_offending hreadable hoffending
      exact .inl ⟨fault, hfirst, hfirst.le_of_awaits hplace hawaits⟩

end Evaluator

/-- Where every variable is bound and every function built in, an expression without a value is
blamed on its first offending token or meets the nesting limit before that, and not both. -/
theorem Evaluator.evaluate_fault {ρ : Type} [Resolver ρ] {evaluator : Evaluator ρ}
    {tokens : TokenSequence} (hlexed : evaluator.tokenize evaluator.expression = .ok tokens)
    (hsettled : ∀ token ∈ tokens.body, token.Settled evaluator.environment)
    (hfails : ∀ value, evaluator.evaluate.result ≠ .ok value) :
    Xor (∃ place token, evaluator.BlamesToken tokens place token)
      (∃ place frames, evaluator.MeetsLimit tokens place frames) := by
  -- The errors differ, so there is no doubt about which one it is.
  have hexclusive : ∀ place token place' frames, evaluator.BlamesToken tokens place token →
      ¬ evaluator.MeetsLimit tokens place' frames := by
    intro place token place' frames hblames hlimit
    have hresult := hblames.result
    rw [hlimit.result] at hresult
    cases hresult
  by_cases hroom : ∀ number, .enter number ∈ (ofTokens tokens).steps → number < nestingLimit
  · obtain ⟨place, token, hblames⟩ := exists_blamesToken hlexed hsettled hfails hroom
    refine .inl ⟨⟨place, token, hblames⟩, ?_⟩
    rintro ⟨place', frames, hlimit⟩
    exact hexclusive _ _ _ _ hblames hlimit
  · simp only [not_forall, Nat.not_lt] at hroom
    obtain ⟨number, henter, hnumber⟩ := hroom
    obtain ⟨place, frames, hlimit⟩ := exists_meetsLimit hlexed hsettled henter hnumber
    refine .inr ⟨⟨place, frames, hlimit⟩, ?_⟩
    rintro ⟨place', token, hblames⟩
    exact hexclusive _ _ _ _ hblames hlimit

/-- A parenthesis is closed where a factor has to begin. -/
theorem Evaluator.evaluate_fault_of_parenthesis :
    ∃ tokens place token, BlamesToken
      ({ expression := "2*)", resolver := {} } : Evaluator Silent) tokens place token := by
  let evaluator : Evaluator Silent := { expression := "2*)", resolver := {} }
  let tokens : TokenSequence :=
    { body := [⟨.number, "2", 0⟩, ⟨.star, "*", 1⟩, ⟨.rightParen, ")", 2⟩]
      endPosition := 3
      body_kind := by decide }
  have hlexed : evaluator.tokenize evaluator.expression = .ok tokens := by decide +kernel
  have hsettled : ∀ token ∈ tokens.body, token.Settled evaluator.environment := by
    unfold Token.Settled
    decide +kernel
  have hresult : evaluator.evaluate.result = .error (.unexpectedToken ")" 2) := by decide +kernel
  have hfails : ∀ value, evaluator.evaluate.result ≠ .ok value := by
    intro value hvalue
    rw [hresult] at hvalue
    cases hvalue
  rcases Evaluator.evaluate_fault hlexed hsettled hfails with ⟨hblames, -⟩ | ⟨hlimit, -⟩
  · exact ⟨tokens, hblames⟩
  · obtain ⟨place, frames, hlimit⟩ := hlimit
    have hother := hlimit.result
    rw [hresult] at hother
    cases hother

end Reckoner
