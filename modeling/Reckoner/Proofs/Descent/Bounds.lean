/-
  Reckoner.Proofs.Descent.Bounds

  A descent keeps to the tokens that it is given (`perform_keeps_to_tokens`).

  A procedure that begins on a token of a sequence reads only tokens of the sequence, because it
  reads on only after a token that is not the end, and it goes back only after it has read.  Each
  procedure is guarded if the calls in it are; so all of them are, at any number of levels of calls
  (`guards_performBy`).  Where one returns, the cursor is on a token again, before which the phrase
  ends.
-/
import Reckoner.Proofs.Descent.Agreement
import Reckoner.Proofs.Descent.Guards

namespace Reckoner.Descent

variable {ρ : Type}

/-! ## The procedures -/

/-- The token under the cursor is of a kind at which a phrase ends. -/
def Under (tokens : TokenSequence) (ends : TokenKind → Bool) (cursor : Cursor) : Prop :=
  ∃ token, tokens.toList[cursor.position]? = some token ∧ ends token.kind

/-- Where a task that is performed leaves the cursor. -/
def Leaves (tokens : TokenSequence) (cursor after : Cursor) : Task → Prop
  | .sequence | .expression => True
  | .sum =>
    Passes tokens cursor after ∧ cursor.position < after.position ∧
      Under tokens TokenKind.endsSum after
  | .sumRest _ => Passes tokens cursor after ∧ Under tokens TokenKind.endsSum after
  | .product =>
    Passes tokens cursor after ∧ cursor.position < after.position ∧
      Under tokens TokenKind.endsProduct after
  | .productRest _ => Passes tokens cursor after ∧ Under tokens TokenKind.endsProduct after
  | .factor | .operand => Passes tokens cursor after ∧ cursor.position < after.position
  | .application _ _ => after = cursor

variable [Resolver ρ]

/-- The calls may be performed with their moves checked. -/
def InnerGuards (checked plain : Performer ρ) : Prop :=
  ∀ (tokens : TokenSequence) (callers : List Call) (task : Task) (cursor : Cursor),
    On tokens cursor → Guards [] (checked callers task cursor) (plain callers task cursor)
      fun outcome => Leaves tokens cursor outcome.2 task

section Procedures

variable {checked plain : Performer ρ} {tokens : TokenSequence} {cursor : Cursor}

theorem guards_sequence (hinner : InnerGuards checked plain) (hon : On tokens cursor)
    (callers : List Call) :
    Guards [] (proceduresBy .checked checked callers .sequence cursor)
      (procedures plain callers .sequence cursor)
      fun outcome => Leaves tokens cursor outcome.2 .sequence := by
  rw [proceduresBy, procedures]
  refine guards_enter hon callers _ fun calls => ?_
  refine (guards_ofEvaluation (Evaluation.rejectsNone_bindVariables _)).bind fun _ _ => ?_
  have hstart : On tokens { cursor with position := 0 } := ⟨hon.tokens_eq, Nat.zero_le _⟩
  refine (hinner tokens calls .expression _ hstart).weaken.bind fun _ _ => ?_
  exact guards_pure trivial

theorem guards_expression (hinner : InnerGuards checked plain) (hon : On tokens cursor)
    (callers : List Call) :
    Guards [] (proceduresBy .checked checked callers .expression cursor)
      (procedures plain callers .expression cursor)
      fun outcome => Leaves tokens cursor outcome.2 .expression := by
  rw [proceduresBy, procedures]
  refine guards_enter hon callers _ fun calls => ?_
  refine (guards_next hon).bind ?_
  rintro ⟨first, _⟩ ⟨hfirst, rfl⟩
  dsimp only
  split
  · exact guards_pure trivial
  · refine guards_back ((hinner tokens calls .sum cursor hon).weaken.bind ?_)
    rintro ⟨value, between⟩ ⟨hpasses, -, -⟩
    refine (guards_next hpasses.on).bind ?_
    rintro ⟨last, _⟩ ⟨hlast, rfl⟩
    dsimp only
    split
    · exact guards_pure trivial
    · exact guards_reject hpasses.on.tokens_eq hlast

theorem guards_sum (hinner : InnerGuards checked plain) (hon : On tokens cursor)
    (callers : List Call) :
    Guards [] (proceduresBy .checked checked callers .sum cursor)
      (procedures plain callers .sum cursor)
      fun outcome => Leaves tokens cursor outcome.2 .sum := by
  rw [proceduresBy, procedures]
  refine guards_enter hon callers _ fun calls => ?_
  refine (hinner tokens calls .product cursor hon).weaken.bind ?_
  rintro ⟨value, between⟩ ⟨hpasses, hlt, -⟩
  refine (hinner tokens calls (.sumRest value) between hpasses.on).weaken.imp ?_
  rintro ⟨_, after⟩ ⟨hrest, hunder⟩
  exact ⟨hpasses.trans hrest, Nat.lt_of_lt_of_le hlt hrest.position_le, hunder⟩

theorem guards_sumRest (hinner : InnerGuards checked plain) (hon : On tokens cursor)
    (callers : List Call) (left : Float) :
    Guards [] (proceduresBy .checked checked callers (.sumRest left) cursor)
      (procedures plain callers (.sumRest left) cursor)
      fun outcome => Leaves tokens cursor outcome.2 (.sumRest left) := by
  rw [proceduresBy, procedures]
  refine guards_enter hon callers _ fun calls => ?_
  refine (guards_next hon).bind ?_
  rintro ⟨token, _⟩ ⟨htoken, rfl⟩
  dsimp only
  cases hoperator : token.kind.additive? with
  | some operator =>
      have hkind := TokenKind.not_of_additive? hoperator
      have hpasses := hon.passes htoken hkind.1 hkind.2
      refine (hinner tokens calls .product _ hpasses.on).weaken.bind ?_
      rintro ⟨right, between⟩ ⟨hright, -, -⟩
      refine (hinner tokens calls (.sumRest _) between hright.on).weaken.imp ?_
      rintro ⟨_, after⟩ ⟨hrest, hunder⟩
      exact ⟨hpasses.trans (hright.trans hrest), hunder⟩
  | none =>
      dsimp only
      split
      · next hends => exact guards_back (guards_pure ⟨.refl hon, token, htoken, hends⟩)
      · exact guards_reject hon.tokens_eq htoken

theorem guards_product (hinner : InnerGuards checked plain) (hon : On tokens cursor)
    (callers : List Call) :
    Guards [] (proceduresBy .checked checked callers .product cursor)
      (procedures plain callers .product cursor)
      fun outcome => Leaves tokens cursor outcome.2 .product := by
  rw [proceduresBy, procedures]
  refine guards_enter hon callers _ fun calls => ?_
  refine (hinner tokens calls .factor cursor hon).weaken.bind ?_
  rintro ⟨value, between⟩ ⟨hpasses, hlt⟩
  refine (hinner tokens calls (.productRest value) between hpasses.on).weaken.imp ?_
  rintro ⟨_, after⟩ ⟨hrest, hunder⟩
  exact ⟨hpasses.trans hrest, Nat.lt_of_lt_of_le hlt hrest.position_le, hunder⟩

theorem guards_productRest (hinner : InnerGuards checked plain) (hon : On tokens cursor)
    (callers : List Call) (left : Float) :
    Guards [] (proceduresBy .checked checked callers (.productRest left) cursor)
      (procedures plain callers (.productRest left) cursor)
      fun outcome => Leaves tokens cursor outcome.2 (.productRest left) := by
  rw [proceduresBy, procedures]
  refine guards_enter hon callers _ fun calls => ?_
  refine (guards_next hon).bind ?_
  rintro ⟨token, _⟩ ⟨htoken, rfl⟩
  dsimp only
  cases hoperator : token.kind.multiplicative? with
  | some operator =>
      have hkind := TokenKind.not_of_multiplicative? hoperator
      have hpasses := hon.passes htoken hkind.1 hkind.2
      refine (hinner tokens calls .factor _ hpasses.on).weaken.bind ?_
      rintro ⟨right, between⟩ ⟨hright, -⟩
      refine (hinner tokens calls (.productRest _) between hright.on).weaken.imp ?_
      rintro ⟨_, after⟩ ⟨hrest, hunder⟩
      exact ⟨hpasses.trans (hright.trans hrest), hunder⟩
  | none =>
      dsimp only
      split
      · next hends => exact guards_back (guards_pure ⟨.refl hon, token, htoken, hends⟩)
      · exact guards_reject hon.tokens_eq htoken

theorem guards_factor (hinner : InnerGuards checked plain) (hon : On tokens cursor)
    (callers : List Call) :
    Guards [] (proceduresBy .checked checked callers .factor cursor)
      (procedures plain callers .factor cursor)
      fun outcome => Leaves tokens cursor outcome.2 .factor := by
  rw [proceduresBy, procedures]
  refine guards_enter hon callers _ fun calls => ?_
  exact (hinner tokens calls .operand cursor hon).weaken.counted

theorem guards_operand (hinner : InnerGuards checked plain) (hon : On tokens cursor)
    (callers : List Call) :
    Guards [] (proceduresBy .checked checked callers .operand cursor)
      (procedures plain callers .operand cursor)
      fun outcome => Leaves tokens cursor outcome.2 .operand := by
  rw [proceduresBy, procedures]
  refine guards_enter hon callers _ fun calls => ?_
  refine (guards_next hon).bind ?_
  rintro ⟨token, _⟩ ⟨htoken, rfl⟩
  have hlt : cursor.position < cursor.position + 1 := Nat.lt_succ_self _
  have hafter : Cursor.tokens { cursor with position := cursor.position + 1 } = tokens.toList :=
    hon.tokens_eq
  have hreject : Guards tokens.toList _ (unexpected token : Descent ρ (Float × Cursor))
      fun outcome => Leaves tokens cursor outcome.2 .operand := guards_reject hafter htoken
  dsimp only
  cases hkind : token.kind with
  | number =>
      have hpasses := hon.passes htoken (by rw [hkind]; decide) (by rw [hkind]; decide)
      dsimp only
      cases Numeral.read token.text with
      | ok value => exact guards_pure ⟨hpasses, hlt⟩
      | error error => exact hreject
  | variableName =>
      have hpasses := hon.passes htoken (by rw [hkind]; decide) (by rw [hkind]; decide)
      refine (guards_ofEvaluation (Evaluation.rejectsNone_resolve _)).bind fun value _ => ?_
      exact guards_pure ⟨hpasses, hlt⟩
  | leftParen =>
      have hinside := hon.next htoken (by rw [hkind]; decide)
      refine (hinner tokens calls .sum _ hinside).weaken.bind ?_
      rintro ⟨value, between⟩ ⟨hpasses, hless, -⟩
      refine (guards_next hpasses.on).bind ?_
      rintro ⟨closing, _⟩ ⟨hclosing, rfl⟩
      dsimp only
      split
      · next hclosingKind =>
          have hbetween : cursor.position + 1 < between.position := hless
          refine guards_pure ⟨hpasses.parenthesized htoken hkind hclosing hclosingKind, ?_⟩
          dsimp only
          omega
      · exact guards_reject hpasses.on.tokens_eq hclosing
  | functionName =>
      have hpasses := hon.passes htoken (by rw [hkind]; decide) (by rw [hkind]; decide)
      refine (hinner tokens calls .factor _ hpasses.on).weaken.bind ?_
      rintro ⟨argument, between⟩ ⟨hargument, hless⟩
      refine (hinner tokens calls (.application token.text argument) between
        hargument.on).weaken.imp ?_
      rintro ⟨_, _⟩ rfl
      exact ⟨hpasses.trans hargument, Nat.lt_trans hlt hless⟩
  | minus =>
      have hpasses := hon.passes htoken (by rw [hkind]; decide) (by rw [hkind]; decide)
      refine (hinner tokens calls .factor _ hpasses.on).weaken.bind ?_
      rintro ⟨value, between⟩ ⟨hoperand, hless⟩
      exact guards_pure ⟨hpasses.trans hoperand, Nat.lt_trans hlt hless⟩
  | rightParen | plus | star | slash | endOfInput => exact hreject

theorem guards_application (hinner : InnerGuards checked plain) (hon : On tokens cursor)
    (callers : List Call) (name : String) (argument : Float) :
    Guards [] (proceduresBy .checked checked callers (.application name argument) cursor)
      (procedures plain callers (.application name argument) cursor)
      fun outcome => Leaves tokens cursor outcome.2 (.application name argument) := by
  rw [proceduresBy, procedures]
  refine guards_enter hon callers _ fun calls => ?_
  dsimp only
  cases BuiltIn.ofName? name with
  | some function => exact guards_pure rfl
  | none =>
      refine (guards_ofEvaluation (Evaluation.rejectsNone_askFunction _)).bind fun function _ => ?_
      split
      · refine (guards_ofEvaluation (Evaluation.rejectsNone_readText _ _)).bind fun body _ => ?_
        -- The body is a sequence of its own.
        have hstart := On.start (body.substitute function.placeholder argument)
        refine (hinner _ calls .sequence _ hstart).weaken.bind fun _ _ => ?_
        exact guards_pure rfl
      · refine guards_throw ?_
        rintro _ _ ⟨⟩

end Procedures

/-- With any number of levels, and whatever a resolver answers, a descent whose moves are checked
does what one does whose moves are not. -/
theorem guards_performBy (levels : Nat) :
    InnerGuards (performBy .checked levels : Performer ρ) (performBy .plain levels) := by
  induction levels with
  | zero => exact fun _ _ _ _ _ _ => ⟨rfl, nofun⟩
  | succ levels ih =>
      intro tokens callers task cursor hon
      rw [performBy, performBy, proceduresBy_plain]
      cases task with
      | sequence => exact guards_sequence ih hon callers
      | expression => exact guards_expression ih hon callers
      | sum => exact guards_sum ih hon callers
      | sumRest left => exact guards_sumRest ih hon callers left
      | product => exact guards_product ih hon callers
      | productRest left => exact guards_productRest ih hon callers left
      | factor => exact guards_factor ih hon callers
      | operand => exact guards_operand ih hon callers
      | application name argument => exact guards_application ih hon callers name argument

/-- Whatever a resolver answers, every task that begins on a token of a sequence is performed with
its moves checked, as it is without: no token is read after the last, the cursor goes back only from
where it has read, and only tokens are rejected that are there.  All calls in it begin on tokens of
sequences too, those of the bodies of functions.  Where it returns a value the cursor is on a token,
and a phrase has passed balanced parentheses and stands before what may follow it. -/
theorem perform_keeps_to_tokens (tokens : TokenSequence) :
    tokens.toList.filter (·.kind = .endOfInput) = [Token.atEnd tokens.endPosition] ∧
    tokens.toList.getLast? = some (Token.atEnd tokens.endPosition) ∧
    ∀ (callers : List Call) (state : State ρ) (task : Task) (cursor : Cursor), On tokens cursor →
      ∃ levels result after made,
        performBy .checked levels callers task cursor state = some (result, after) ∧
        perform callers task cursor state = some (result, after) ∧
        after.entered = state.entered ++ made ∧ Placed made ∧
        (match result with
          | .ok (_, stop) => Leaves tokens cursor stop task
          | .error error => Rejects [] made error) ∧
        (task = .sequence → (result.map Prod.fst, after.toEvalState)
          = Evaluation.evaluateTokens (nestingLimit - state.depth) tokens state.toEvalState) := by
  refine ⟨?_, List.getLast?_concat, fun callers state task cursor hon => ?_⟩
  · have hbody : tokens.body.filter (·.kind = .endOfInput) = [] :=
      List.filter_eq_nil_iff.2 fun token htoken => by simpa using tokens.body_kind token htoken
    rw [TokenSequence.toList, List.filter_append, hbody]
    rfl
  · obtain ⟨result, after, hrun, -⟩ := perform_returns task cursor state.depth callers state rfl
    obtain ⟨levels, hlevels⟩ := (approaches_perform callers task cursor).exists_stage hrun
    obtain ⟨heq, hresult⟩ := guards_performBy levels tokens callers task cursor hon state
    rw [performBy_plain] at heq hresult
    obtain ⟨made, hmade, hplaced, hproperty⟩ := hresult result after hlevels
    refine ⟨levels, result, after, made, heq.trans hlevels, hrun, hmade, hplaced, ?_, ?_⟩
    · cases result with
      | ok value => exact hproperty
      | error error => exact hproperty
    · rintro rfl
      obtain ⟨result', after', hrun', -, hwhole⟩ :=
        follows_of_contract (.sequence hon.tokens_eq) callers state rfl
      obtain ⟨rfl, rfl⟩ := Prod.mk.inj (Option.some.inj (hrun.symm.trans hrun'))
      cases result with
      | ok value =>
          obtain ⟨left, rfl, heq⟩ := hwhole
          exact heq.symm
      | error error => exact hwhole.symm

/-- A sum that begins with a parenthesis is passed as a whole. -/
theorem perform_keeps_to_parentheses :
    ∃ (tokens : TokenSequence) (state after : State Silent) (value : Float) (stop : Cursor),
      tokens.body.map Token.kind = [.leftParen, .number, .rightParen] ∧
      perform [] .sum { tokens := tokens.toList } state = some (.ok (value, stop), after) ∧
      stop.position = 3 ∧ Leaves tokens { tokens := tokens.toList } stop .sum := by
  let tokens : TokenSequence :=
    ⟨[⟨.leftParen, "(", 0⟩, ⟨.number, "7", 1⟩, ⟨.rightParen, ")", 2⟩], 3, by decide⟩
  let state : State Silent := { environment := .initial, resolver := ⟨⟩ }
  -- The levels are those of the sum, its product and factor, and the same inside the parentheses.
  have hstop : (performWithin 9 [] .sum { tokens := tokens.toList } state).map
      (·.1.toOption.map (·.2.position)) = some (some 3) := by decide +kernel
  obtain ⟨-, -, hperform⟩ := perform_keeps_to_tokens (ρ := Silent) tokens
  obtain ⟨_, result, after, _, -, hrun, -, -, hresult, -⟩ :=
    hperform [] state .sum _ (.start tokens)
  obtain ⟨outcome, hlevels, hposition⟩ := Option.map_eq_some_iff.1 hstop
  have hsome := (approaches_perform [] .sum { tokens := tokens.toList }).extends_limit 9 _ _ hlevels
  obtain rfl := Option.some.inj (hsome.symm.trans hrun)
  rcases result with error | ⟨value, stop⟩
  · cases hposition
  · exact ⟨tokens, state, after, value, stop, rfl, hrun, Option.some.inj hposition, hresult⟩

end Reckoner.Descent
