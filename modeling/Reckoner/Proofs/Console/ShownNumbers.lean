/-
  Reckoner.Proofs.Console.ShownNumbers

  What the console shows for a number can be typed back (`shown_typed_back`).

  It is read in three ways.  As an expression, what is shown for a finite number is a literal, after
  a sign if the sign bit is set, and the grammar negates what the literal denotes.  In a token that
  takes the place of a variable it is one numeral, and its sign belongs to it.  As an answer it is a
  numeral too, once the line has been trimmed, and there is nothing to trim.
-/
import Reckoner.Console
import Reckoner.Proofs.Decimal.RoundTrip
import Reckoner.Proofs.Descent.Recursion
import Reckoner.Proofs.Evaluation.Sentences
import Reckoner.Proofs.Syntax.Reading
import Reckoner.Proofs.Token.Pieces

namespace Reckoner

open Unicode Lexer

/-! ## The characters of a numeral -/

/-- There is nothing to trim off a text without white space. -/
theorem Unicode.trim_eq_self {text : String} (h : text.toList.all fun c => !isWhiteSpace c) :
    trim text = text := by
  have hdrop {characters : List Char} (hcharacters : characters.all fun c => !isWhiteSpace c) :
      characters.dropWhile isWhiteSpace = characters := by
    refine List.dropWhile_eq_self_iff.2 fun hpos hwhite => ?_
    have hnone := List.all_eq_true.1 hcharacters _ (List.getElem_mem hpos)
    rw [hwhite] at hnone
    cases hnone
  have hreverse : text.toList.reverse.all fun c => !isWhiteSpace c := by rwa [List.all_reverse]
  rw [trim, hdrop h, hdrop hreverse, List.reverse_reverse, String.ofList_toList]

namespace Numeral

/-- A positional numeral is what the lexer takes for a literal. -/
theorem isLiteral_positional (d : Decimal) : IsLiteral (positional d) := by
  obtain ⟨whole, fraction, hparts⟩ := exists_parts d
  have hcount {digits : List Char} (hdigits : ∀ c ∈ digits, c.isDigit) : digits.count '.' = 0 :=
    List.count_eq_zero.2 fun hmem => absurd (hdigits '.' hmem) (by decide)
  have hpoints : (pointed fraction).count '.' ≤ 1 := by
    cases fraction with
    | nil => exact Nat.zero_le _
    | cons first rest =>
        rw [pointed, List.count_cons_self, hcount hparts.isDigit_of_mem_fraction]
  refine ⟨?_, ?_, ?_⟩
  · obtain ⟨first, rest, hpositional, hfirst, -⟩ := readUnsigned_positional d
    rw [hpositional]
    exact ⟨first, rfl, hfirst⟩
  · exact List.all_eq_true.1 (all_positional (fun _ => isNumeralChar_of_isDigit) rfl d)
  · rw [hparts.positional_eq, List.count_append, hcount hparts.isDigit_of_mem_whole, Nat.zero_add]
    exact hpoints

/-- A finite number is written as a literal for its magnitude, after a sign if it is negative. -/
theorem exists_literal {x : Float} (hfinite : x.isFinite) : ∃ literal, IsLiteral literal ∧
    read (String.ofList literal) = .ok (Binary64.ofMagnitude (Binary64.magnitude x)) ∧
    ofFloat x = (if Binary64.isNegative x then "-" else "") ++ String.ofList literal := by
  have hbelow := Binary64.isFinite_iff.1 hfinite
  refine ⟨positional (Decimal.shortest (Binary64.magnitude x)), isLiteral_positional _, ?_, ?_⟩
  · obtain ⟨first, rest, hpositional, hfirst, hread⟩ :=
      readUnsigned_positional (Decimal.shortest (Binary64.magnitude x))
    rw [hpositional, read_ofList_of_isDigit hfirst, hread, Decimal.magnitude_shortest hbelow]
  · rw [ofFloat, if_neg (Nat.lt_asymm hbelow)]
    simp only [if_neg hbelow.ne]

/-- No number is written with white space. -/
theorem all_not_isWhiteSpace_ofFloat (x : Float) :
    (ofFloat x).toList.all fun c => !isWhiteSpace c := by
  have hdigit : ∀ c : Char, c.isDigit → !isWhiteSpace c := by
    intro c hc
    rw [Bool.eq_false_iff.2 (not_of_isDigit hc).1]
    rfl
  exact all_ofFloat hdigit (by decide +kernel) (by decide +kernel) (by decide +kernel)
    (by decide +kernel) x

end Numeral

/-! ## As an expression -/

/-- A literal by itself, with whatever position it has. -/
theorem Lexer.IsLiteral.pieces {names : KnownNames} {literal : List Char} (h : IsLiteral literal)
    (position : Nat) :
    Pieces names position literal [⟨.number, String.ofList literal, position⟩] := by
  have hpiece : Piece names position literal [] _ := .literal h (notAhead_nil _)
  have hpieces := Pieces.piece hpiece .nil
  rwa [List.append_nil, List.append_nil] at hpieces

/-- What is written for a finite number is a sentence, and nobody has to be asked about it. -/
theorem exists_sentence_ofFloat {x : Float} (hfinite : x.isFinite) (names : KnownNames) :
    ∃ tokens tree, tokenize names (Numeral.ofFloat x) = .ok tokens ∧
      Sentence tokens.body (some tree) ∧ tree.openFactors ≤ 2 ∧
      (∀ token ∈ tokens.body, token.kind = .minus ∨ token.kind = .number) ∧
      ∀ environment : Environment, tree.value environment.interpretation = x := by
  obtain ⟨literal, hliteral, hread, htext⟩ := Numeral.exists_literal hfinite
  have hnumber := (Binary64.isFinite_iff.1 hfinite).le
  cases hsign : Binary64.isNegative x with
  | false =>
      have hpieces : Pieces names 0 (Numeral.ofFloat x).toList
          [⟨.number, String.ofList literal, 0⟩] := by
        rw [htext, hsign, if_neg (by decide), String.empty_append, String.toList_ofList]
        exact hliteral.pieces 0
      obtain ⟨tokens, htokens, hbody, -⟩ := exists_tokenize_of_pieces hpieces
      refine ⟨tokens, .number (String.ofList literal), htokens, ?_, Nat.le_succ 1, ?_, ?_⟩
      · rw [hbody]
        exact .sum (.sumOfProduct (.productOfFactor (.number rfl)))
      · rw [hbody]
        intro token htoken
        rw [List.mem_singleton.1 htoken]
        exact .inr rfl
      · intro environment
        show Numeral.valueOf (String.ofList literal) = x
        rw [Numeral.valueOf_of_read hread, Binary64.ofMagnitude_magnitude hsign hnumber]
  | true =>
      have hpieces : Pieces names 0 (Numeral.ofFloat x).toList
          [⟨.minus, "-", 0⟩, ⟨.number, String.ofList literal, 1⟩] := by
        rw [htext, hsign, if_pos rfl, String.toList_append, String.toList_ofList,
          String.toList_ofList]
        exact .piece (.symbol rfl) (hliteral.pieces 1)
      obtain ⟨tokens, htokens, hbody, -⟩ := exists_tokenize_of_pieces hpieces
      refine ⟨tokens, .negation (.number (String.ofList literal)), htokens, ?_, Nat.le_refl 2, ?_,
        ?_⟩
      · rw [hbody]
        exact .sum (.sumOfProduct (.productOfFactor (.negation rfl (.number rfl))))
      · rw [hbody]
        intro token htoken
        rcases List.mem_cons.1 htoken with rfl | htoken
        · exact .inl rfl
        · rw [List.mem_singleton.1 htoken]
          exact .inr rfl
      · intro environment
        show -Numeral.valueOf (String.ofList literal) = x
        rw [Numeral.valueOf_of_read hread, Binary64.neg_ofMagnitude_magnitude hsign hnumber]

/-- What is written for a finite number has the number for its value. -/
theorem Evaluator.evaluate_ofFloat {ρ : Type} [Resolver ρ] (evaluator : Evaluator ρ) {x : Float}
    (hfinite : x.isFinite) :
    (evaluator.setExpression (Numeral.ofFloat x)).evaluate.result = .ok x := by
  obtain ⟨tokens, tree, htokens, hsentence, hfactors, hkinds, hvalue⟩ :=
    exists_sentence_ofFloat hfinite evaluator.environment.resetConventional.knownNames
  have hsettled (environment : Environment) : ∀ token ∈ tokens.body, token.Settled environment := by
    intro token htoken
    rcases hkinds token htoken with hkind | hkind <;> rw [Token.Settled, hkind] <;>
      exact ⟨nofun, nofun⟩
  have hroom : tree.openFactors ≤ nestingLimit := Nat.le_trans hfactors (by decide)
  show (Evaluation.evaluateText (Numeral.ofFloat x)
    { environment := evaluator.environment.resetConventional
      resolver := evaluator.resolver }).1 = .ok x
  rw [Evaluation.evaluateText_of_tokenize htokens]
  exact (Evaluation.evaluateTokens_of_settled (readable_of_tokenize htokens) (hsettled _) x).2
    ⟨some tree, hsentence, hroom, hvalue _⟩

/-! ## In place of a variable -/

namespace Descent

variable {ρ : Type} [Resolver ρ]

theorem perform_operand_of_number {token : Token} {value : Float} {cursor after : Cursor}
    (hkind : token.kind = .number) (hread : Numeral.read token.text = .ok value)
    (hnext : cursor.next = (some token, after)) (callers : List Call) (state : State ρ) :
    perform callers .operand cursor state = some (.ok (value, after),
      { state with entered := state.entered ++ [⟨.operand, cursor, state.depth⟩ :: callers] }) := by
  have htoken : (next cursor : Descent ρ (Token × Cursor)) = pure (token, after) := by
    rw [next, hnext]
  rw [perform_eq, procedures, bind_apply, enter]
  simp only [htoken, pure_bind, hkind, hread]
  rfl

/-- A number is a factor by itself, if one more may be open. -/
theorem perform_factor_of_number {token : Token} {value : Float} {cursor after : Cursor}
    (hkind : token.kind = .number) (hread : Numeral.read token.text = .ok value)
    (hnext : cursor.next = (some token, after)) (callers : List Call) {state : State ρ}
    (hdepth : state.depth < nestingLimit) :
    ∃ entered, perform callers .factor cursor state
      = some (.ok (value, after), { state with entered }) := by
  let calls : List Call := ⟨.factor, cursor, state.depth⟩ :: callers
  let called : State ρ := { state with entered := state.entered ++ [calls] }
  have hoperand := perform_operand_of_number hkind hread hnext calls
    { called with depth := called.depth + 1 }
  have hcounted : counted (perform calls .operand cursor) called = some _ :=
    counted_of_lt hdepth hoperand
  rw [perform_eq, procedures, bind_apply, enter]
  exact ⟨_, hcounted⟩

end Descent

/-- Where a factor has to begin, the token is read as the number: by a program, which puts the
number on the stack, and by a descent, which returns it and has passed the token. -/
structure ReadAsFactor (token : Token) (value : Float) : Prop where
  program : ∀ stop frames rest,
    Program.ofOperand stop frames (token :: rest)
      = (Program.ofOperator stop (Frame.closeFactor frames).2 rest).prepend
          (.enter (Frame.opened frames) :: .literal value :: (Frame.closeFactor frames).1)
  descent : ∀ {ρ : Type} [Resolver ρ] (callers : List Descent.Call) (cursor after : Cursor)
    (state : Descent.State ρ), cursor.next = (some token, after) → state.depth < nestingLimit →
    ∃ entered, Descent.perform callers .factor cursor state
      = some (.ok (value, after), { state with entered })

theorem readAsFactor_of_read {token : Token} {value : Float} (hkind : token.kind = .number)
    (hread : Numeral.read token.text = .ok value) : ReadAsFactor token value where
  program := fun _ _ rest =>
    Program.ofOperand_of_leaf? (by simp only [Token.leaf?, hkind, hread]) rest
  descent := fun callers _ _ _ hnext hdepth =>
    Descent.perform_factor_of_number hkind hread hnext callers hdepth

/-! ## As an answer -/

namespace Console

/-- The answer for a variable is the number that was written, when it is typed by itself. -/
theorem value_of_unread {dialogue : Dialogue} {unread : List Reading} {value : Float}
    (hunread : dialogue.unread = .ok (Numeral.ofFloat value) :: unread) (name : String) :
    ∃ events, Resolver.value dialogue name = (.ok value, { unread, events }) := by
  obtain ⟨_, events⟩ := dialogue
  obtain rfl := hunread
  have htrim := Unicode.trim_eq_self (Numeral.all_not_isWhiteSpace_ofFloat value)
  refine ⟨events ++ [.prompted (.value name), .read (some (.ok (Numeral.ofFloat value)))], ?_⟩
  simp only [Resolver.value, Dialogue.ask, List.head?_cons, List.tail_cons, answerOf, htrim,
    Numeral.read_ofFloat]

/-- A variable is bound to the number that was written, when it is typed for its value. -/
theorem resolve_of_unread {state : EvalState Dialogue} {name : String} {unread : List Reading}
    {value : Float} (hknown : state.environment.isKnown name)
    (hunbound : state.environment.value? name = none)
    (hunread : state.resolver.unread = .ok (Numeral.ofFloat value) :: unread) :
    ∃ after, Evaluation.resolve name state = (.ok value, after) ∧
      after.environment = state.environment.set name (some value) ∧
      after.environment.value? name = some value ∧ after.resolver.unread = unread := by
  obtain ⟨events, hanswer⟩ := value_of_unread hunread name
  have hresolve := Evaluation.resolve_of_value?_eq_none hknown hunbound
  rw [hanswer] at hresolve
  refine ⟨_, hresolve, rfl, ?_, rfl⟩
  rw [Environment.value?_set, if_pos rfl]

/-! ## What is shown -/

/-- What is shown for a number can be typed back.  A finite number is the value of it as an
expression.  Any number, those that are not finite too, is read from the token that is put in place
of a variable, and a variable is bound to it if it is the answer. -/
theorem shown_typed_back {value : Float} {text : String}
    (hshown : (Event.shown (.ok value)).text = text ++ "\n") :
    (value.isFinite → ∀ {ρ : Type} [Resolver ρ] (evaluator : Evaluator ρ),
      (evaluator.setExpression text).evaluate.result = .ok value) ∧
    (∀ (tokens : TokenSequence) (name : String) (i : Nat) (token : Token),
      tokens.body[i]? = some token → token.kind = .variableName → token.text = name →
      ∃ number, (tokens.substitute name value).body[i]? = some number ∧ number.kind = .number ∧
        number.text = text ∧ number.position = token.position ∧ ReadAsFactor number value) ∧
    (∀ (state : EvalState Dialogue) (name : String) (unread : List Reading),
      state.environment.isKnown name → state.environment.value? name = none →
      state.resolver.unread = .ok text :: unread →
      ∃ after, Evaluation.resolve name state = (.ok value, after) ∧
        after.environment = state.environment.set name (some value) ∧
        after.environment.value? name = some value ∧ after.resolver.unread = unread) := by
  obtain rfl : Numeral.ofFloat value = text := (String.append_left_inj "\n").1 hshown
  refine ⟨fun hfinite _ _ evaluator => evaluator.evaluate_ofFloat hfinite, ?_, ?_⟩
  · intro tokens name i token htoken hkind hname
    refine ⟨token.substitute name value, ?_, ?_⟩
    · rw [TokenSequence.substitute, List.getElem?_map, htoken, Option.map_some]
    · rw [Token.substitute_eq hkind hname]
      exact ⟨rfl, rfl, rfl, readAsFactor_of_read rfl (Numeral.read_ofFloat value)⟩
  · exact fun state name unread => resolve_of_unread

/-- Negative zero, and negative infinity, which is no expression. -/
theorem shown_typed_back_of_negative :
    (Evaluator.setExpression { resolver := Silent.mk } "-0").evaluate.result
      = .ok (Float.ofBits 0x8000000000000000) ∧
    (∃ number, ((TokenSequence.ofList [⟨.variableName, "x", 3⟩]).substitute "x"
        (Float.ofBits 0xFFF0000000000000)).body[0]? = some number ∧ number.text = "-inf" ∧
      ReadAsFactor number (Float.ofBits 0xFFF0000000000000)) ∧
    ∃ after : EvalState Dialogue,
      after.environment.value? "x" = some (Float.ofBits 0xFFF0000000000000) ∧
      Evaluation.resolve "x"
          { environment := Environment.initial.set "x" none
            resolver := { unread := [.ok "-inf"] } }
        = (.ok (Float.ofBits 0xFFF0000000000000), after) := by
  have hzero : (Event.shown (.ok (Float.ofBits 0x8000000000000000))).text = "-0" ++ "\n" := by
    decide +kernel
  have hinfinite : (Event.shown (.ok (Float.ofBits 0xFFF0000000000000))).text = "-inf" ++ "\n" := by
    decide +kernel
  obtain ⟨hexpression, -⟩ := shown_typed_back hzero
  obtain ⟨-, hsubstituted, hanswer⟩ := shown_typed_back hinfinite
  refine ⟨hexpression (by decide +kernel) _, ?_, ?_⟩
  · obtain ⟨number, hnumber, -, htext, -, hread⟩ :=
      hsubstituted (TokenSequence.ofList [⟨.variableName, "x", 3⟩]) "x" 0 ⟨.variableName, "x", 3⟩
        (by decide +kernel) rfl rfl
    exact ⟨number, hnumber, htext, hread⟩
  · obtain ⟨after, hresolve, -, hvalue, -⟩ := hanswer
      { environment := Environment.initial.set "x" none
        resolver := { unread := [.ok "-inf"] } } "x" []
      (by decide +kernel) (by decide +kernel) rfl
    exact ⟨after, hvalue, hresolve⟩

end Console

end Reckoner
