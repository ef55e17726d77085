/-
  Reckoner.Proofs.Descent.Agreement

  A descent comes to what the evaluation comes to.

  What an evaluation keeps in frames and on its stack is spread over the procedures that are open in
  a descent.  So each procedure accounts for a piece of the run of a program: from where the
  procedure begins to where it returns, with any frames around it and any numbers below its own on
  the stack (`Contract`).  By the order of calls every procedure keeps its contract
  (`follows_of_contract`), and the contract of the outermost one is the whole evaluation.

  Together with what is known of the calls this says that evaluations end, and how
  (`Evaluator.evaluate_by_descent`).
-/
import Reckoner.Proofs.Descent.Simulation

namespace Reckoner

open Reckoner.Frame Program

theorem TokenKind.eq_rightParen_of_endsSum {kind : TokenKind} (h : kind.endsSum)
    (hne : kind ≠ .endOfInput) : kind = .rightParen := by
  rw [endsSum, Bool.or_eq_true, decide_eq_true_iff, decide_eq_true_iff] at h
  exact h.resolve_left hne

theorem Program.prepend_injective {steps : List Step} {program program' : Program}
    (h : program.prepend steps = program'.prepend steps) : program = program' := by
  obtain ⟨steps', offending⟩ := program
  obtain ⟨steps'', offending'⟩ := program'
  simpa [prepend] using h

namespace Descent

variable {ρ : Type}

/-! ## What each procedure has to do -/

section Contracts

variable [Resolver ρ]

open Evaluation

/-- Where a phrase stands in an evaluation that has begun with some factors open: the frames around
it, which are open factors too, the numbers on the stack, and the tokens from the cursor on. -/
structure Site (depth : Nat) (cursor : Cursor) where
  base : Nat
  stop : Token
  frames : List Frame
  stack : List Float
  rest : List Token
  before : At stop cursor rest
  counted : depth = base + opened frames

namespace Site

variable {depth : Nat} {cursor : Cursor}

/-- How many factors may be open in the evaluation. -/
def room (site : Site depth cursor) : Nat :=
  nestingLimit - site.base

/-- The evaluation where a factor has to begin. -/
def operand (site : Site depth cursor) : Evaluation ρ Float :=
  resume site.room (ofOperand site.stop site.frames site.rest) site.stack

/-- The evaluation where a factor has just ended with a value. -/
def operator (site : Site depth cursor) (value : Float) : Evaluation ρ Float :=
  resume site.room (ofOperator site.stop site.frames site.rest) (value :: site.stack)

/-- A phrase of the site has ended before a token of some kinds, or before the end. -/
def Ended (site : Site depth cursor) (ends : TokenKind → Bool) (outcome : Float × Cursor)
    (left : Evaluation ρ Float) : Prop :=
  ∃ rest, At site.stop outcome.2 rest ∧ (∀ token ∈ rest.head?, ends token.kind) ∧
    left = resume site.room (ofOperator site.stop site.frames rest) (outcome.1 :: site.stack)

/-- A factor of the site has ended, and what has waited for it is still to be completed. -/
def EndedFactor (site : Site depth cursor) (outcome : Float × Cursor)
    (left : Evaluation ρ Float) : Prop :=
  ∃ rest, At site.stop outcome.2 rest ∧
    left = resume site.room (prepend (closeFactor site.frames).1
      (ofOperator site.stop (closeFactor site.frames).2 rest)) (outcome.1 :: site.stack)

/-- No product has been begun, so a product may begin. -/
def AwaitsProduct (site : Site depth cursor) : Prop :=
  closeFactor site.frames = ([], site.frames)

/-- No sum has been begun either. -/
def AwaitsSum (site : Site depth cursor) : Prop :=
  site.AwaitsProduct ∧ closeProduct site.frames = ([], site.frames)

end Site

/-- The piece of an evaluation that each procedure stands for: the whole that begins with it, and
what is left where it ends. -/
inductive Contract : Nat → Task → Cursor → Evaluation ρ Float →
    (Float × Cursor → Evaluation ρ Float → Prop) → Prop
  | sequence {depth : Nat} {cursor : Cursor} {tokens : TokenSequence}
      (htokens : cursor.tokens = tokens.toList) :
      Contract depth .sequence cursor (evaluateTokens (nestingLimit - depth) tokens)
        fun outcome left => left = pure outcome.1
  | expression {depth : Nat} {tokens : TokenSequence} :
      Contract depth .expression { tokens := tokens.toList }
        (resume (nestingLimit - depth) (ofTokens tokens) [])
        fun outcome left => left = pure outcome.1
  | sum {depth : Nat} {cursor : Cursor} (site : Site depth cursor) (hsum : site.AwaitsSum) :
      Contract depth .sum cursor site.operand (site.Ended TokenKind.endsSum)
  | sumRest {depth : Nat} {cursor : Cursor} (site : Site depth cursor) (left : Float)
      (hsum : site.AwaitsSum) (hends : ∀ token ∈ site.rest.head?, token.kind.endsProduct) :
      Contract depth (.sumRest left) cursor (site.operator left) (site.Ended TokenKind.endsSum)
  | product {depth : Nat} {cursor : Cursor} (site : Site depth cursor)
      (hproduct : site.AwaitsProduct) :
      Contract depth .product cursor site.operand (site.Ended TokenKind.endsProduct)
  | productRest {depth : Nat} {cursor : Cursor} (site : Site depth cursor) (left : Float)
      (hproduct : site.AwaitsProduct) :
      Contract depth (.productRest left) cursor (site.operator left)
        (site.Ended TokenKind.endsProduct)
  | factor {depth : Nat} {cursor : Cursor} (site : Site depth cursor) :
      Contract depth .factor cursor site.operand site.EndedFactor
  | operand {depth : Nat} {cursor : Cursor} (site : Site depth cursor) {program : Program}
      (hlimit : depth < nestingLimit)
      (hprogram : ofOperand site.stop site.frames site.rest
        = prepend [.enter (opened site.frames)] program) :
      Contract (depth + 1) .operand cursor (resume site.room program site.stack) site.EndedFactor
  | application {depth : Nat} {cursor : Cursor} {function : String} {argument : Float} :
      Contract depth (.application function argument) cursor
        (applyFunction (evaluateTokens (nestingLimit - depth)) function argument)
        fun outcome left => outcome.2 = cursor ∧ left = pure outcome.1

/-- What a call may call keeps its contract, and does not move the cursor back. -/
def InnerFollows (ρ : Type) [Resolver ρ] (depth : Nat) (procedure : Procedure) (cursor : Cursor) :
    Prop :=
  ∀ (callers : List Call) {task : Task} {cursor' : Cursor} {whole : Evaluation ρ Float}
    {property : Float × Cursor → Evaluation ρ Float → Prop},
    Contract depth task cursor' whole property →
    Call.Below ⟨task.procedure, cursor', depth⟩ ⟨procedure, cursor, depth⟩ →
    Follows depth (perform callers task cursor') whole fun outcome left =>
      Ahead cursor' outcome.2 ∧ property outcome left

/-- A token that is no multiplicative operator and does not end a product stands where none of its
kind may. -/
theorem offends_of_not_endsProduct {frames : List Frame} {token : Token}
    (hmultiplicative : token.kind.multiplicative? = none) (hends : ¬ token.kind.endsProduct) :
    Offends frames token := by
  rw [TokenKind.endsProduct, Bool.or_eq_true, not_or, Bool.not_eq_true, Bool.not_eq_true,
    Option.isSome_eq_false_iff, Option.isNone_iff_eq_none] at hends
  refine ⟨hmultiplicative, hends.2, fun hkind => ?_⟩
  rw [TokenKind.endsSum, hkind] at hends
  exact absurd hends.1 (by decide)

section Procedures

variable {depth : Nat} {cursor : Cursor} (callers : List Call)

theorem follows_product (site : Site depth cursor) (hproduct : site.AwaitsProduct)
    (hinner : InnerFollows ρ depth .product cursor) :
    Follows depth (perform callers .product cursor : Descent ρ (Float × Cursor)) site.operand
      (site.Ended TokenKind.endsProduct) := by
  rw [perform_eq, procedures]
  refine (follows_enter _ _ _).bind ?_
  rintro calls _ rfl
  refine (hinner calls (.factor site) (.of_size (.refl cursor) rfl (by simp))).bind ?_
  rintro ⟨value, between⟩ _ ⟨hfactor, rest, hrest, rfl⟩
  rw [hproduct]
  refine (hinner calls (.productRest { site with rest := rest, before := hrest } value hproduct)
    (.of_size hfactor rfl (by simp))).imp ?_
  exact fun _ _ hended => hended.2

theorem follows_productRest (site : Site depth cursor) (left : Float)
    (hproduct : site.AwaitsProduct) (hinner : InnerFollows ρ depth .productRest cursor) :
    Follows depth (perform callers (.productRest left) cursor : Descent ρ (Float × Cursor))
      (site.operator left) (site.Ended TokenKind.endsProduct) := by
  obtain ⟨base, stop, frames, stack, rest, hbefore, hcounted⟩ := site
  rw [perform_eq, procedures]
  refine (follows_enter _ _ _).bind ?_
  rintro calls _ rfl
  dsimp only
  rcases rest with _ | ⟨token, more⟩
  · rw [hbefore.next_nil, pure_bind]
    dsimp only
    rw [hbefore.stop_kind]
    exact follows_pure ⟨[], hbefore, by simp, rfl⟩
  · rw [hbefore.next_cons, pure_bind]
    dsimp only
    cases hoperator : token.kind.multiplicative? with
    | some operator =>
        let inner : Site depth { cursor with position := cursor.position + 1 } :=
          { base, stop, frames := .product operator :: frames, stack := left :: stack, rest := more
            before := hbefore.tail
            counted := hcounted.trans
              (by rw [opened_cons_of_isFactor_eq_false frames rfl]) }
        have hclose : closeFactor inner.frames = ([.combine operator], frames) := by
          show Prod.map _ _ (closeFactor frames) = _
          rw [show closeFactor frames = ([], frames) from hproduct]
          rfl
        rw [Site.operator, ofOperator_of_multiplicative? hoperator]
        refine (hinner calls (.factor inner) (.of_next hbefore.position_lt (.refl _) rfl)).bind ?_
        rintro ⟨right, between⟩ _ ⟨hfactor, rest, hrest, rfl⟩
        rw [hclose]
        dsimp only
        rw [resume_combine]
        refine (hinner calls (.productRest ⟨base, stop, frames, stack, rest, hrest, hcounted⟩
          (operator.apply left right) hproduct)
          (.of_next hbefore.position_lt hfactor rfl)).imp ?_
        exact fun _ _ hended => hended.2
    | none =>
        dsimp only
        by_cases hends : token.kind.endsProduct
        · rw [if_pos hends]
          exact follows_pure ⟨token :: more, hbefore, by simpa using hends, rfl⟩
        · rw [if_neg hends, Site.operator,
            ofOperator_of_offends (offends_of_not_endsProduct hoperator hends)]
          exact follows_unexpected token _

theorem follows_sum (site : Site depth cursor) (hsum : site.AwaitsSum)
    (hinner : InnerFollows ρ depth .sum cursor) :
    Follows depth (perform callers .sum cursor : Descent ρ (Float × Cursor)) site.operand
      (site.Ended TokenKind.endsSum) := by
  rw [perform_eq, procedures]
  refine (follows_enter _ _ _).bind ?_
  rintro calls _ rfl
  refine (hinner calls (.product site hsum.1) (.of_size (.refl cursor) rfl (by simp))).bind ?_
  rintro ⟨value, between⟩ _ ⟨hproduct, rest, hrest, hends, rfl⟩
  refine (hinner calls (.sumRest { site with rest := rest, before := hrest } value hsum hends)
    (.of_size hproduct rfl (by simp))).imp ?_
  exact fun _ _ hended => hended.2

theorem follows_sumRest (site : Site depth cursor) (left : Float) (hsum : site.AwaitsSum)
    (hends : ∀ token ∈ site.rest.head?, token.kind.endsProduct)
    (hinner : InnerFollows ρ depth .sumRest cursor) :
    Follows depth (perform callers (.sumRest left) cursor : Descent ρ (Float × Cursor))
      (site.operator left) (site.Ended TokenKind.endsSum) := by
  obtain ⟨base, stop, frames, stack, rest, hbefore, hcounted⟩ := site
  obtain ⟨hfactor, hproduct⟩ : closeFactor frames = ([], frames) ∧
    closeProduct frames = ([], frames) := hsum
  rw [perform_eq, procedures]
  refine (follows_enter _ _ _).bind ?_
  rintro calls _ rfl
  dsimp only
  rcases rest with _ | ⟨token, more⟩
  · rw [hbefore.next_nil, pure_bind]
    dsimp only
    rw [hbefore.stop_kind]
    exact follows_pure ⟨[], hbefore, by simp, rfl⟩
  · rw [hbefore.next_cons, pure_bind]
    dsimp only
    cases hoperator : token.kind.additive? with
    | some operator =>
        -- The sum so far is the left side, and the frame keeps its operator.
        let inner : Site depth { cursor with position := cursor.position + 1 } :=
          { base, stop, frames := .sum operator :: frames, stack := left :: stack, rest := more
            before := hbefore.tail
            counted := hcounted.trans
              (by rw [opened_cons_of_isFactor_eq_false frames rfl]) }
        rw [Site.operator, ofOperator_of_additive? hoperator, hproduct, resume_prepend_nil]
        refine (hinner calls (.product inner rfl)
          (.of_next hbefore.position_lt (.refl _) rfl)).bind ?_
        rintro ⟨right, between⟩ _ ⟨hright, rest, hrest, hends, rfl⟩
        rw [resume_closeSum hproduct hends]
        refine (hinner calls (.sumRest ⟨base, stop, frames, stack, rest, hrest, hcounted⟩
          (operator.apply left right) ⟨hfactor, hproduct⟩ hends)
          (.of_next hbefore.position_lt hright rfl)).imp ?_
        exact fun _ _ hended => hended.2
    | none =>
        -- No other token is left by the product before it.
        have hsumEnds : token.kind.endsSum := by
          have hkind := hends token rfl
          rwa [TokenKind.endsProduct, hoperator, Option.isSome_none, Bool.or_false] at hkind
        dsimp only
        rw [if_pos hsumEnds]
        exact follows_pure ⟨token :: more, hbefore, by simpa using hsumEnds, rfl⟩

theorem follows_factor (site : Site depth cursor)
    (hoperand : ∀ (calls : List Call) {program : Program}, depth < nestingLimit →
      ofOperand site.stop site.frames site.rest = prepend [.enter (opened site.frames)] program →
      Follows (depth + 1) (perform calls .operand cursor : Descent ρ (Float × Cursor))
        (resume site.room program site.stack) site.EndedFactor) :
    Follows depth (perform callers .factor cursor : Descent ρ (Float × Cursor)) site.operand
      site.EndedFactor := by
  rw [perform_eq, procedures]
  refine (follows_enter _ _ _).bind ?_
  rintro calls _ rfl
  obtain ⟨program, hprogram⟩ := exists_ofOperand_eq_prepend site.stop site.frames site.rest
  refine .counted (fun hlimit => hoperand calls hlimit hprogram) fun state => ?_
  rw [Site.operand, hprogram, resume_prepend_enter]
  have hcounted := site.counted
  by_cases hlimit : depth < nestingLimit
  · rw [if_pos hlimit, if_pos]
    rw [Site.room]
    omega
  · rw [if_neg hlimit, if_neg]
    rw [Site.room]
    omega

/-- What follows a sum in parentheses. -/
theorem follows_closing {room : Nat} {stop : Token} {frames : List Frame} {stack : List Float}
    {rest : List Token} {value : Float} (hbefore : At stop cursor rest)
    (hends : ∀ token ∈ rest.head?, token.kind.endsSum) :
    Follows depth
      (do
        let (closing, cursor) ← next cursor
        if closing.kind = .rightParen then return (value, cursor) else unexpected closing)
      (resume room (ofOperator stop (.parenthesis :: frames) rest) (value :: stack))
      (fun (outcome : Float × Cursor) (left : Evaluation ρ Float) =>
        ∃ rest, At stop outcome.2 rest ∧
          left = resume room (prepend (closeFactor frames).1
            (ofOperator stop (closeFactor frames).2 rest)) (outcome.1 :: stack)) := by
  rcases rest with _ | ⟨token, more⟩
  · rw [hbefore.next_nil, pure_bind, ofOperator_nil_of_unclosed (by simp [closeProduct])]
    dsimp only
    rw [hbefore.stop_kind, if_neg (by decide)]
    exact follows_unexpected stop _
  · rw [hbefore.next_cons, pure_bind]
    dsimp only
    -- The sum has not ended before the end, so the parenthesis is closed.
    have hkind := TokenKind.eq_rightParen_of_endsSum (hends token rfl)
      (hbefore.rest_kind token List.mem_cons_self)
    rw [if_pos hkind, ofOperator_of_closes hkind rfl]
    exact follows_pure ⟨more, hbefore.tail, rfl⟩

/-- What follows the argument of a function. -/
theorem follows_applied {base : Nat} {frames : List Frame} {name : String} {argument : Float}
    {steps : List Step} {program : Program} {stack : List Float} (calls : List Call)
    (hlimit : depth < nestingLimit) (hcounted : depth = base + opened frames)
    (happlication : Follows (depth + 1)
      (perform calls (.application name argument) cursor : Descent ρ (Float × Cursor))
      (applyFunction (evaluateTokens (nestingLimit - (depth + 1))) name argument)
      fun outcome left => Ahead cursor outcome.2 ∧ outcome.2 = cursor ∧ left = pure outcome.1) :
    Follows (depth + 1)
      (perform calls (.application name argument) cursor : Descent ρ (Float × Cursor))
      (resume (nestingLimit - base) (prepend (.apply name (opened frames) :: steps) program)
        (argument :: stack))
      fun outcome left => outcome.2 = cursor ∧
        left = resume (nestingLimit - base) (prepend steps program) (outcome.1 :: stack) := by
  have hopened : opened frames < nestingLimit - base := by omega
  have hroom : nestingLimit - base - (opened frames + 1) = nestingLimit - (depth + 1) := by omega
  rw [resume_apply hopened, hroom]
  refine (happlication.andThen _).imp ?_
  rintro ⟨value, _⟩ _ ⟨_, ⟨-, rfl, rfl⟩, rfl⟩
  exact ⟨rfl, pure_bind ..⟩

theorem follows_operand (site : Site depth cursor) {program : Program}
    (hlimit : depth < nestingLimit)
    (hprogram : ofOperand site.stop site.frames site.rest
      = prepend [.enter (opened site.frames)] program)
    (hinner : InnerFollows ρ (depth + 1) .operand cursor) :
    Follows (depth + 1) (perform callers .operand cursor : Descent ρ (Float × Cursor))
      (resume site.room program site.stack) site.EndedFactor := by
  obtain ⟨base, stop, frames, stack, rest, hbefore, hcounted⟩ := site
  have hrest : ∀ program', ofOperand stop frames rest = prepend [.enter (opened frames)] program' →
      program = program' :=
    fun program' heq => prepend_injective (hprogram.symm.trans heq)
  rw [perform_eq, procedures]
  refine (follows_enter _ _ _).bind ?_
  rintro calls _ rfl
  dsimp only
  rcases rest with _ | ⟨token, more⟩
  · rw [hbefore.next_nil, pure_bind, hrest _ (by rw [ofOperand])]
    dsimp only
    rw [hbefore.stop_kind]
    exact follows_unexpected stop _
  · rw [hbefore.next_cons, pure_bind]
    dsimp only
    -- What is behind the token is read by calls of the last stage.
    have hlater : ∀ {procedure : Procedure}, procedure.stage = 0 →
        Call.Below ⟨procedure, { cursor with position := cursor.position + 1 }, depth + 1⟩
          ⟨.operand, cursor, depth + 1⟩ := by
      intro procedure hstage
      refine .later rfl ?_
      show procedure.stage < 3
      omega
    have hleaf : ∀ {step : Step}, token.leaf? = some step → program
        = prepend (step :: (closeFactor frames).1) (ofOperator stop (closeFactor frames).2 more) :=
      fun h => hrest _ (by rw [ofOperand_of_leaf? h]; rfl)
    have hopens : ∀ {frame : Frame}, token.opens? = some frame →
        program = ofOperand stop (frame :: frames) more ∧
          depth + 1 = base + opened (frame :: frames) := by
      intro frame h
      refine ⟨hrest _ (ofOperand_of_opens? h more), ?_⟩
      rw [opened_cons_of_isFactor frames (Token.isFactor_of_opens? h), hcounted, Nat.add_assoc]
    have hoffends : token.leaf? = none → token.opens? = none → program = halted token :=
      fun hleaf hopens => hrest _ (ofOperand_of_offends hleaf hopens more)
    cases hkind : token.kind with
    | number =>
        dsimp only
        rw [Token.leaf?, hkind] at hleaf hoffends
        rw [Token.opens?, hkind] at hoffends
        cases hread : Numeral.read token.text with
        | ok value =>
            simp only [hread] at hleaf
            rw [hleaf rfl]
            exact follows_pure ⟨more, hbefore.tail, rfl⟩
        | error error =>
            simp only [hread] at hoffends
            rw [hoffends trivial trivial]
            exact follows_unexpected token _
    | variableName =>
        rw [Token.leaf?, hkind] at hleaf
        rw [hleaf rfl, resume_load]
        refine (follows_ofEvaluation _ _).bind ?_
        rintro value _ rfl
        exact follows_pure ⟨more, hbefore.tail, rfl⟩
    | leftParen =>
        rw [Token.opens?, hkind] at hopens
        obtain ⟨rfl, hinside⟩ := hopens rfl
        let inner : Site (depth + 1) { cursor with position := cursor.position + 1 } :=
          ⟨base, stop, .parenthesis :: frames, stack, more, hbefore.tail, hinside⟩
        refine (hinner calls (.sum inner ⟨rfl, rfl⟩) (hlater rfl)).bind ?_
        rintro ⟨value, between⟩ _ ⟨-, rest, hbetween, hends, rfl⟩
        exact follows_closing hbetween hends
    | functionName =>
        rw [Token.opens?, hkind] at hopens
        obtain ⟨rfl, hinside⟩ := hopens rfl
        let inner : Site (depth + 1) { cursor with position := cursor.position + 1 } :=
          ⟨base, stop, .function token.text :: frames, stack, more, hbefore.tail, hinside⟩
        refine (hinner calls (.factor inner) (hlater rfl)).bind ?_
        rintro ⟨argument, between⟩ _ ⟨-, rest, hbetween, rfl⟩
        refine (follows_applied calls hlimit hcounted (hinner calls .application
          (.later rfl (by simp)))).imp ?_
        rintro ⟨value, _⟩ _ ⟨rfl, rfl⟩
        exact ⟨rest, hbetween, rfl⟩
    | minus =>
        rw [Token.opens?, hkind] at hopens
        obtain ⟨rfl, hinside⟩ := hopens rfl
        let inner : Site (depth + 1) { cursor with position := cursor.position + 1 } :=
          ⟨base, stop, .sign :: frames, stack, more, hbefore.tail, hinside⟩
        refine (hinner calls (.factor inner) (hlater rfl)).bind ?_
        rintro ⟨value, between⟩ _ ⟨-, rest, hbetween, rfl⟩
        exact follows_pure ⟨rest, hbetween, resume_prepend_cons ..⟩
    | rightParen | plus | star | slash | endOfInput =>
        rw [Token.leaf?, Token.opens?, hkind] at hoffends
        rw [hoffends rfl rfl]
        exact follows_unexpected token _

theorem follows_expression (tokens : TokenSequence)
    (hinner : InnerFollows ρ depth .expression { tokens := tokens.toList }) :
    Follows depth
      (perform callers .expression { tokens := tokens.toList } : Descent ρ (Float × Cursor))
      (resume (nestingLimit - depth) (ofTokens tokens) [])
      fun outcome left => left = pure outcome.1 := by
  have hbefore := At.of_tokens tokens
  rw [perform_eq, procedures]
  refine (follows_enter _ _ _).bind ?_
  rintro calls _ rfl
  dsimp only
  rcases hbody : tokens.body with _ | ⟨token, more⟩
  · rw [hbody] at hbefore
    rw [hbefore.next_nil, pure_bind, ofTokens, hbody]
    exact follows_pure rfl
  · rw [hbody] at hbefore
    let site : Site depth { tokens := tokens.toList } :=
      ⟨depth, Token.atEnd tokens.endPosition, [], [], token :: more, hbefore, rfl⟩
    rw [hbefore.next_cons, pure_bind, ofTokens_of_body hbody (List.cons_ne_nil token more)]
    dsimp only
    rw [if_neg (hbefore.rest_kind token List.mem_cons_self)]
    refine (hinner calls (.sum site ⟨rfl, rfl⟩) (.of_size (.refl _) rfl (by simp))).bind ?_
    rintro ⟨value, between⟩ _ ⟨-, rest, hbetween, hends, rfl⟩
    dsimp only
    rcases rest with _ | ⟨last, rest⟩
    · rw [hbetween.next_nil, pure_bind]
      exact follows_pure rfl
    · -- The sum has ended before a parenthesis that nothing has opened.
      have hlast : last.kind ≠ .endOfInput := hbetween.rest_kind last List.mem_cons_self
      have hoffends : Offends [] last := by
        have hkind := TokenKind.eq_rightParen_of_endsSum (hends last rfl) hlast
        exact ⟨by rw [hkind]; rfl, by rw [hkind]; rfl, fun _ outer => by simp [closeProduct]⟩
      rw [hbetween.next_cons, pure_bind, ofOperator_of_offends hoffends]
      dsimp only
      rw [if_neg hlast]
      exact follows_unexpected last _

theorem follows_sequence {tokens : TokenSequence} (htokens : cursor.tokens = tokens.toList)
    (hinner : InnerFollows ρ depth .sequence cursor) :
    Follows depth (perform callers .sequence cursor : Descent ρ (Float × Cursor))
      (evaluateTokens (nestingLimit - depth) tokens)
      fun outcome left => left = pure outcome.1 := by
  rw [perform_eq, procedures, evaluateTokens, ← bindVariables_toList, ← htokens]
  refine (follows_enter _ _ _).bind ?_
  rintro calls _ rfl
  refine (follows_ofEvaluation _ _).bind ?_
  rintro _ _ rfl
  rw [htokens]
  have hexpression := @Contract.expression ρ _ depth tokens
  refine (hinner calls hexpression (.later rfl (by simp))).bind ?_
  rintro ⟨value, _⟩ _ ⟨-, rfl⟩
  exact follows_pure rfl

theorem follows_application (name : String) (argument : Float)
    (hinner : InnerFollows ρ depth .application cursor) :
    Follows depth (perform callers (.application name argument) cursor : Descent ρ (Float × Cursor))
      (applyFunction (evaluateTokens (nestingLimit - depth)) name argument)
      fun outcome left => outcome.2 = cursor ∧ left = pure outcome.1 := by
  rw [perform_eq, procedures, applyFunction]
  refine (follows_enter _ _ _).bind ?_
  rintro calls _ rfl
  dsimp only
  cases BuiltIn.ofName? name with
  | some function => exact follows_pure ⟨rfl, rfl⟩
  | none =>
      refine (follows_ofEvaluation _ _).bind ?_
      rintro function _ rfl
      split
      · refine (follows_ofEvaluation _ _).bind ?_
        rintro tokens _ rfl
        refine (hinner calls (.sequence rfl) (.later rfl (by simp))).bind ?_
        rintro ⟨value, _⟩ _ ⟨-, rfl⟩
        exact follows_pure ⟨rfl, rfl⟩
      · exact follows_throw fun _ => rfl

end Procedures

/-- Every procedure keeps its contract. -/
theorem follows_of_contract {depth : Nat} {task : Task} {cursor : Cursor}
    {whole : Evaluation ρ Float} {property : Float × Cursor → Evaluation ρ Float → Prop}
    (hcontract : Contract depth task cursor whole property) (callers : List Call) :
    Follows depth (perform callers task cursor) whole property := by
  -- The induction is on the order of calls.
  induction hcall : (⟨task.procedure, cursor, depth⟩ : Call) using
    Call.below_wellFounded.induction generalizing task cursor depth callers whole property with
  | _ call ih =>
  subst hcall
  have hinner : InnerFollows ρ depth task.procedure cursor := by
    intro callers' task' cursor' whole' property' hcontract' hbelow state hdepth
    obtain ⟨result, after, hrun, hafter, hresult⟩ :=
      ih _ hbelow hcontract' callers' rfl state hdepth
    obtain ⟨result', after', hrun', -, -, hahead⟩ :=
      perform_returns task' cursor' depth callers' state hdepth
    obtain ⟨rfl, rfl⟩ := Prod.mk.inj (Option.some.inj (hrun.symm.trans hrun'))
    refine ⟨result, after, hrun, hafter, ?_⟩
    rcases result with error | value
    · exact hresult
    · obtain ⟨left, hleft, heq⟩ := hresult
      exact ⟨left, ⟨hahead value rfl, hleft⟩, heq⟩
  cases hcontract with
  | sequence htokens => exact follows_sequence callers htokens hinner
  | expression => exact follows_expression callers _ hinner
  | sum site hsum => exact follows_sum callers site hsum hinner
  | sumRest site left hsum hends =>
      exact follows_sumRest callers site left hsum hends hinner
  | product site hproduct => exact follows_product callers site hproduct hinner
  | productRest site left hproduct => exact follows_productRest callers site left hproduct hinner
  | factor site =>
      refine follows_factor callers site fun calls program hlimit hprogram => ?_
      exact ih ⟨.operand, cursor, depth + 1⟩ (.deeper (Nat.lt_succ_self depth) hlimit)
        (.operand site hlimit hprogram) calls rfl
  | operand site hlimit hprogram => exact follows_operand callers site hlimit hprogram hinner
  | application => exact follows_application callers _ _ hinner

/-- The evaluation of a text by descent ends with what the evaluation ends with. -/
theorem exists_evaluateText_eq (text : String) (state : State ρ) (hdepth : state.depth = 0) :
    ∃ after, evaluateText text state
        = some ((Evaluation.evaluateText text state.toEvalState).1, after) ∧
      after.toEvalState = (Evaluation.evaluateText text state.toEvalState).2 := by
  have hfollows : Follows 0 (evaluateText text : Descent ρ Float) (Evaluation.evaluateText text)
      fun value left => left = pure value := by
    refine (follows_ofEvaluation _ _).bind ?_
    rintro tokens _ rfl
    refine (follows_of_contract (.sequence rfl) []).bind ?_
    rintro ⟨value, _⟩ _ rfl
    exact follows_pure rfl
  obtain ⟨result, after, hrun, -, hresult⟩ := hfollows state hdepth
  rcases result with error | value
  · exact ⟨after, by rw [hrun, hresult], by rw [hresult]⟩
  · obtain ⟨left, rfl, heq⟩ := hresult
    exact ⟨after, by rw [hrun, heq]; rfl, by rw [heq]; rfl⟩

end Contracts

end Descent

/-- Whatever the resolver, the environment and the expression, the evaluation by descent ends, with
the result of the evaluation, and what it has called by then has been called in order.  Every
single task ends too, and puts the counter back to where it was. -/
theorem Evaluator.evaluate_by_descent {ρ : Type} [Resolver ρ] (evaluator : Evaluator ρ) :
    (∃ after : Descent.State ρ,
      Descent.evaluateText evaluator.expression
          { environment := evaluator.environment, resolver := evaluator.resolver }
        = some (evaluator.evaluate.result, after) ∧
      after.environment = evaluator.evaluate.evaluator.environment ∧
      after.resolver = evaluator.evaluate.evaluator.resolver ∧
      after.asked = evaluator.evaluate.asked ∧
      after.depth = 0 ∧ ∀ calls ∈ after.entered, Descent.Orderly calls) ∧
    ∀ (callers : List Descent.Call) (task : Descent.Task) (cursor : Cursor)
        (state : Descent.State ρ),
      ∃ result after, Descent.perform callers task cursor state = some (result, after) ∧
        after.depth = state.depth := by
  constructor
  · obtain ⟨after, hrun, hafter⟩ := Descent.exists_evaluateText_eq evaluator.expression
      { environment := evaluator.environment, resolver := evaluator.resolver } rfl
    obtain ⟨result, after', hrun', hdepth, horderly⟩ := Descent.evaluateText_returns
      evaluator.expression { environment := evaluator.environment, resolver := evaluator.resolver }
    obtain ⟨rfl, rfl⟩ := Prod.mk.inj (Option.some.inj (hrun.symm.trans hrun'))
    refine ⟨after, hrun, ?_, ?_, ?_, hdepth, horderly⟩
    · exact congrArg EvalState.environment hafter
    · exact congrArg EvalState.resolver hafter
    · exact congrArg EvalState.asked hafter
  · intro callers task cursor state
    obtain ⟨result, after, hrun, hdepth, -, -⟩ :=
      Descent.perform_returns task cursor state.depth callers state rfl
    exact ⟨result, after, hrun, hdepth⟩

end Reckoner
