/-
  Reckoner.Proofs.Descent.Simulation

  A part of a descent and the piece of an evaluation that it stands for.

  An evaluation runs a program.  What is left of it at some time is what is left of the program, run
  on the stack of that time (`Evaluation.resume`).  A computation of the descent follows an
  evaluation if it ends and does what the evaluation does first; it says what is left then
  (`Follows`).  Computations one after the other follow one piece after the other
  (`Follows.bind`).
-/
import Reckoner.Proofs.Descent.Termination
import Reckoner.Proofs.Evaluation.Faults

namespace Reckoner

open Reckoner.Frame Program

/-! ## Running the rest of a program -/

namespace Evaluation

variable {ρ : Type} [Resolver ρ] {room : Nat}

/-- Runs what is left of a program on what is on the stack. -/
def resume (room : Nat) (program : Program) (stack : List Float) : Evaluation ρ Float := do
  let stack ← program.steps.foldlM (takeStep room (applyWithin room)) stack
  match program.offending with
  | some token => throw (.unexpectedToken token.describe token.position)
  | none => return stack.headD 0

theorem resume_prepend_nil (program : Program) (stack : List Float) :
    (resume room (program.prepend []) stack : Evaluation ρ Float) = resume room program stack :=
  rfl

theorem resume_prepend_cons (step : Step) (steps : List Step) (program : Program)
    (stack : List Float) :
    (resume room (program.prepend (step :: steps)) stack : Evaluation ρ Float)
      = takeStep room (applyWithin room) stack step
          >>= fun stack => resume room (program.prepend steps) stack := by
  simp only [resume, prepend, List.cons_append, List.foldlM_cons, bind_assoc]

theorem resume_prepend_enter (opened : Nat) (program : Program) (stack : List Float)
    (state : EvalState ρ) :
    resume room (program.prepend [.enter opened]) stack state
      = if opened < room then resume room program stack state
        else (.error (.nestingLimit nestingLimit), state) := by
  rw [resume_prepend_cons, bind_apply, takeStep]
  by_cases hroom : opened < room
  · rw [if_pos hroom, if_pos hroom]
    rfl
  · rw [if_neg hroom, if_neg hroom]
    rfl

theorem resume_combine (operator : Operator) (steps : List Step) (program : Program)
    (left right : Float) (stack : List Float) :
    (resume room (program.prepend (.combine operator :: steps)) (right :: left :: stack) :
      Evaluation ρ Float)
      = resume room (program.prepend steps) (operator.apply left right :: stack) :=
  resume_prepend_cons ..

theorem resume_load (name : String) (steps : List Step) (program : Program)
    (stack : List Float) :
    (resume room (program.prepend (.load name :: steps)) stack : Evaluation ρ Float)
      = resolve name >>= fun value => resume room (program.prepend steps) (value :: stack) := by
  rw [resume_prepend_cons, takeStep, bind_assoc]
  rfl

theorem resume_apply {name : String} {opened : Nat} (hopened : opened < room) (steps : List Step)
    (program : Program) (argument : Float) (stack : List Float) :
    (resume room (program.prepend (.apply name opened :: steps)) (argument :: stack) :
      Evaluation ρ Float)
      = applyFunction (evaluateTokens (room - (opened + 1))) name argument
          >>= fun value => resume room (program.prepend steps) (value :: stack) := by
  rw [resume_prepend_cons, takeStep, bind_assoc, applyWithin, if_pos hopened]
  rfl

theorem bindVariables_toList (tokens : TokenSequence) :
    (bindVariables tokens.toList : Evaluation ρ Unit) = bindVariables tokens.body := by
  rw [bindVariables, TokenSequence.toList, List.filter_append, bindVariables]
  simp [Token.atEnd]

/-- A sum whose right side is complete may just as well be taken as complete itself. -/
theorem resume_closeSum {stop : Token} {frames : List Frame} {rest : List Token}
    (hframes : closeProduct frames = ([], frames))
    (hends : ∀ token ∈ rest.head?, token.kind.endsProduct) (operator : Operator)
    (left right : Float) (stack : List Float) :
    (resume room (ofOperator stop (.sum operator :: frames) rest) (right :: left :: stack) :
      Evaluation ρ Float)
      = resume room (ofOperator stop frames rest) (operator.apply left right :: stack) := by
  have hclose : closeProduct (.sum operator :: frames) = ([.combine operator], frames) := rfl
  rcases rest with _ | ⟨token, rest⟩
  · by_cases hnil : frames = []
    · subst hnil
      exact resume_combine operator [] {} left right stack
    · rw [ofOperator_nil_of_unclosed (by rwa [hclose]),
        ofOperator_nil_of_unclosed (by rwa [hframes])]
      rfl
  · cases hadditive : token.kind.additive? with
    | some next =>
        rw [ofOperator_of_additive? hadditive, ofOperator_of_additive? hadditive, hclose, hframes,
          resume_combine]
    | none =>
        have hmultiplicative : token.kind.multiplicative? = none := by
          have hkind := hends token rfl
          cases hkind' : token.kind <;> simp_all [TokenKind.endsProduct, TokenKind.endsSum,
            TokenKind.multiplicative?]
        by_cases hcloses : token.kind = .rightParen ∧ ∃ outer, frames = .parenthesis :: outer
        · obtain ⟨hkind, outer, rfl⟩ := hcloses
          rw [ofOperator_of_closes hkind (by rw [hclose]),
            ofOperator_of_closes hkind (by rw [hframes]), hclose, hframes,
            List.singleton_append, resume_combine, List.nil_append]
        · have hoffends : ∀ frames', (closeProduct frames').2 = frames →
              Offends frames' token := by
            rintro frames' rfl
            exact ⟨hmultiplicative, hadditive, fun hkind outer heq => hcloses ⟨hkind, outer, heq⟩⟩
          rw [ofOperator_of_offends (hoffends _ (by rw [hclose])),
            ofOperator_of_offends (hoffends _ (by rw [hframes]))]
          rfl

end Evaluation

namespace Descent

variable {ρ α β : Type}

/-! ## Cursors and tokens -/

/-- The cursor is before these tokens, and the token of the end comes after them. -/
structure At (stop : Token) (cursor : Cursor) (rest : List Token) : Prop where
  drop : cursor.tokens.drop cursor.position = rest ++ [stop]
  stop_kind : stop.kind = .endOfInput
  rest_kind : ∀ token ∈ rest, token.kind ≠ .endOfInput

namespace At

variable {stop token : Token} {cursor : Cursor} {rest : List Token}

theorem of_tokens (tokens : TokenSequence) :
    At (Token.atEnd tokens.endPosition) { tokens := tokens.toList } tokens.body :=
  ⟨rfl, rfl, tokens.body_kind⟩

theorem next_eq {more : List Token} (h : cursor.tokens.drop cursor.position = token :: more) :
    (next cursor : Descent ρ (Token × Cursor))
      = pure (token, { cursor with position := cursor.position + 1 }) := by
  have hget : cursor.tokens[cursor.position]? = some token := by
    rw [← List.head?_drop, h]
    rfl
  rw [next, Cursor.next, hget]

theorem next_cons (h : At stop cursor (token :: rest)) :
    (next cursor : Descent ρ (Token × Cursor))
      = pure (token, { cursor with position := cursor.position + 1 }) :=
  next_eq h.drop

theorem next_nil (h : At stop cursor []) :
    (next cursor : Descent ρ (Token × Cursor))
      = pure (stop, { cursor with position := cursor.position + 1 }) :=
  next_eq h.drop

theorem position_lt (h : At stop cursor rest) : cursor.position < cursor.tokens.length := by
  have hlength := congrArg List.length h.drop
  rw [List.length_drop, List.length_append, List.length_singleton] at hlength
  omega

theorem tail (h : At stop cursor (token :: rest)) :
    At stop { cursor with position := cursor.position + 1 } rest where
  drop := by rw [← List.drop_drop, h.drop]; rfl
  stop_kind := h.stop_kind
  rest_kind := fun token htoken => h.rest_kind token (List.mem_cons_of_mem _ htoken)

end At

/-! ## Pieces of an evaluation -/

/-- The computation ends, and it does what the evaluation does first.  After an error nothing is
left of the evaluation; after a value what is left has the property. -/
def Follows (depth : Nat) (computation : Descent ρ α) (whole : Evaluation ρ Float)
    (property : α → Evaluation ρ Float → Prop) : Prop :=
  ∀ state, state.depth = depth →
    ∃ result after, computation state = some (result, after) ∧ after.depth = depth ∧
      match result with
      | .ok value =>
        ∃ left, property value left ∧ whole state.toEvalState = left after.toEvalState
      | .error error => whole state.toEvalState = (.error error, after.toEvalState)

section Pieces

variable {depth : Nat} {whole : Evaluation ρ Float} {property : α → Evaluation ρ Float → Prop}
  {property' : β → Evaluation ρ Float → Prop}

theorem follows_pure {value : α} (h : property value whole) :
    Follows depth (pure value : Descent ρ α) whole property :=
  fun state hdepth => ⟨.ok value, state, rfl, hdepth, whole, h, rfl⟩

theorem follows_throw {error : EvalError} (h : ∀ state, whole state = (.error error, state)) :
    Follows depth (throw error : Descent ρ α) whole property :=
  fun state hdepth => ⟨.error error, state, rfl, hdepth, h _⟩

theorem Follows.bind {first : Descent ρ α} {next : α → Descent ρ β}
    (h : Follows depth first whole property)
    (hnext : ∀ value left, property value left → Follows depth (next value) left property') :
    Follows depth (first >>= next) whole property' := by
  intro state hdepth
  obtain ⟨result, middle, hfirst, hmiddle, hwhole⟩ := h state hdepth
  rcases result with error | value
  · exact ⟨.error error, middle, by rw [bind_apply, hfirst], hmiddle, hwhole⟩
  · obtain ⟨left, hleft, heq⟩ := hwhole
    obtain ⟨result, after, hsecond, hafter, hresult⟩ := hnext value left hleft middle hmiddle
    refine ⟨result, after, by rw [bind_apply, hfirst]; exact hsecond, hafter, ?_⟩
    rcases result with error | value'
    · exact heq.trans hresult
    · obtain ⟨left', hleft', heq'⟩ := hresult
      exact ⟨left', hleft', heq.trans heq'⟩

theorem Follows.imp {computation : Descent ρ α} {further : α → Evaluation ρ Float → Prop}
    (h : Follows depth computation whole property)
    (himp : ∀ value left, property value left → further value left) :
    Follows depth computation whole further := by
  intro state hdepth
  obtain ⟨result, after, hrun, hafter, hresult⟩ := h state hdepth
  refine ⟨result, after, hrun, hafter, ?_⟩
  rcases result with error | value
  · exact hresult
  · obtain ⟨left, hleft, heq⟩ := hresult
    exact ⟨left, himp value left hleft, heq⟩

/-- Where the evaluation goes on with its value, so does what is left of it. -/
theorem Follows.andThen {computation : Descent ρ α} (h : Follows depth computation whole property)
    (next : Float → Evaluation ρ Float) :
    Follows depth computation (whole >>= next) fun value left =>
      ∃ before, property value before ∧ left = before >>= next := by
  intro state hdepth
  obtain ⟨result, after, hrun, hafter, hresult⟩ := h state hdepth
  refine ⟨result, after, hrun, hafter, ?_⟩
  rcases result with error | value
  · show (whole >>= next) _ = _
    rw [Evaluation.bind_apply, hresult]
  · obtain ⟨left, hleft, heq⟩ := hresult
    refine ⟨left >>= next, ⟨left, hleft, rfl⟩, ?_⟩
    rw [Evaluation.bind_apply, Evaluation.bind_apply, heq]

theorem follows_unexpected [Resolver ρ] {room : Nat} (token : Token) (stack : List Float) :
    Follows depth (unexpected token : Descent ρ α) (Evaluation.resume room (halted token) stack)
      property :=
  follows_throw fun _ => rfl

theorem follows_ofEvaluation (computation : Evaluation ρ α) (next : α → Evaluation ρ Float) :
    Follows depth (ofEvaluation computation) (computation >>= next)
      fun value left => left = next value := by
  intro state hdepth
  refine ⟨_, _, rfl, hdepth, ?_⟩
  rcases hcomputation : computation state.toEvalState with ⟨error | value, after⟩
  · simp only [Evaluation.bind_apply, hcomputation]
  · refine ⟨next value, rfl, ?_⟩
    rw [Evaluation.bind_apply, hcomputation]

theorem follows_enter (callers : List Call) (procedure : Procedure) (cursor : Cursor) :
    Follows depth (enter callers procedure cursor : Descent ρ (List Call)) whole
      fun _ left => left = whole :=
  fun _ hdepth => ⟨_, _, rfl, hdepth, whole, rfl, rfl⟩

/-- The limit is met in the evaluation as it is in the descent. -/
theorem Follows.counted {computation : Descent ρ α} {inside : Evaluation ρ Float}
    (h : depth < nestingLimit → Follows (depth + 1) computation inside property)
    (hwhole : ∀ state, whole state = if depth < nestingLimit then inside state
      else (.error (.nestingLimit nestingLimit), state)) :
    Follows depth (counted computation) whole property := by
  intro state hdepth
  by_cases hlimit : nestingLimit ≤ state.depth
  · refine ⟨_, _, counted_of_le hlimit, hdepth, ?_⟩
    rw [hwhole, if_neg (by omega)]
  · have hroom : depth < nestingLimit := by omega
    obtain ⟨result, after, hrun, hafter, hresult⟩ :=
      h hroom { state with depth := state.depth + 1 } (by rw [← hdepth])
    refine ⟨result, { after with depth := after.depth - 1 }, counted_of_lt (by omega) hrun, ?_, ?_⟩
    · show after.depth - 1 = depth
      rw [hafter]
      rfl
    · rw [hwhole, if_pos hroom]
      exact hresult

end Pieces

end Descent

end Reckoner
