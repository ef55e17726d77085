/-
  Reckoner.Proofs.Evaluation.Rendering

  Writing a tree out and evaluating the text gives the value of the tree.

  The tree has to be one that the grammar can give: literals, bound names, built-in functions with
  their argument in parentheses, and operators shaped by precedence and associativity
  (`Tree.WellFormed`).  White space may be put anywhere but between the name of a function and its
  parenthesis.  The text is split into just the tokens written, and its value is that of the tree
  (`evaluate_of_written`).
-/
import Reckoner.Proofs.Evaluation.Reachable
import Reckoner.Proofs.Evaluation.Sentences
import Reckoner.Proofs.Syntax.Layout

namespace Reckoner

open Unicode

/-- The functions that are built in have identifiers for their names. -/
theorem BuiltIn.isIdentifier_of_ofName? {name : String} (h : (ofName? name).isSome) :
    isIdentifier name := by
  obtain ⟨function, hfunction⟩ := Option.isSome_iff_exists.1 h
  have hall : ∀ function ∈ BuiltIn.all, isIdentifier function.name := by decide +kernel
  obtain rfl : function.name = name := by simpa using List.find?_some hfunction
  exact hall function (List.mem_of_find?_eq_some hfunction)

namespace Tree

/-- The tree is a phrase of the grammar in which nobody has to be asked: its numbers are literals,
its variables are bound, and its functions are built in and applied to parentheses. -/
inductive WellFormed (environment : Environment) : Phrase → Tree → Prop
  | number {text : String} (hliteral : Lexer.IsLiteral text.toList) :
      WellFormed environment .factor (.number text)
  | variableName {name : String} (hbound : environment.isBound name) :
      WellFormed environment .factor (.variableName name)
  | parenthesis {inner : Tree} (hinner : WellFormed environment .sum inner) :
      WellFormed environment .factor (.parenthesis inner)
  | application {function : String} {inner : Tree}
      (hfunction : (BuiltIn.ofName? function).isSome) (hinner : WellFormed environment .sum inner) :
      WellFormed environment .factor (.application function (.parenthesis inner))
  | negation {operand : Tree} (hoperand : WellFormed environment .factor operand) :
      WellFormed environment .factor (.negation operand)
  | productOfFactor {tree : Tree} (hfactor : WellFormed environment .factor tree) :
      WellFormed environment .product tree
  | product {operator : Operator} {left right : Tree} (hoperator : operator.phrase = .product)
      (hleft : WellFormed environment .product left)
      (hright : WellFormed environment .factor right) :
      WellFormed environment .product (.operation operator left right)
  | sumOfProduct {tree : Tree} (hproduct : WellFormed environment .product tree) :
      WellFormed environment .sum tree
  | sum {operator : Operator} {left right : Tree} (hoperator : operator.phrase = .sum)
      (hleft : WellFormed environment .sum left)
      (hright : WellFormed environment .product right) :
      WellFormed environment .sum (.operation operator left right)

namespace WellFormed

variable {environment : Environment} {phrase : Phrase} {tree : Tree}

/-! ## The tokens of the tree -/

/-- What holds of symbols, literals, bound names and built-in functions holds of all its tokens. -/
theorem forall_lexemes {motive : Lexeme → Prop} (h : tree.WellFormed environment phrase)
    (hsymbol : ∀ c kind, TokenKind.ofSymbol? c = some kind → motive ⟨kind, String.singleton c⟩)
    (hnumber : ∀ text, Lexer.IsLiteral text.toList → motive ⟨.number, text⟩)
    (hvariable : ∀ name, environment.isBound name → motive ⟨.variableName, name⟩)
    (hfunction : ∀ name, (BuiltIn.ofName? name).isSome → motive ⟨.functionName, name⟩) :
    ∀ lexeme ∈ tree.lexemes, motive lexeme := by
  have hleft : motive ⟨.leftParen, "("⟩ := hsymbol '(' _ rfl
  have hright : motive ⟨.rightParen, ")"⟩ := hsymbol ')' _ rfl
  have hoperators (operator : Operator) : motive operator.lexeme := by
    cases operator with
    | add => exact hsymbol '+' _ rfl
    | subtract => exact hsymbol '-' _ rfl
    | multiply => exact hsymbol '*' _ rfl
    | divide => exact hsymbol '/' _ rfl
  induction h with
  | number hliteral => exact List.forall_mem_singleton.2 (hnumber _ hliteral)
  | variableName hbound => exact List.forall_mem_singleton.2 (hvariable _ hbound)
  | parenthesis _ ih =>
      simp only [lexemes, List.forall_mem_cons, List.forall_mem_append]
      exact ⟨hleft, ih, hright, List.forall_mem_nil _⟩
  | application hname _ ih =>
      simp only [lexemes, List.forall_mem_cons, List.forall_mem_append]
      exact ⟨hfunction _ hname, hleft, ih, hright, List.forall_mem_nil _⟩
  | negation _ ih =>
      simp only [lexemes, List.forall_mem_cons]
      exact ⟨hoperators .subtract, ih⟩
  | productOfFactor _ ih => exact ih
  | sumOfProduct _ ih => exact ih
  | @product operator _ _ _ _ _ ihLeft ihRight | @sum operator _ _ _ _ _ ihLeft ihRight =>
      simp only [lexemes, List.forall_mem_cons, List.forall_mem_append]
      exact ⟨ihLeft, hoperators operator, ihRight⟩

/-- In a reachable environment the tokens can be read. -/
theorem legible (h : tree.WellFormed environment phrase) (hreachable : environment.Reachable) :
    ∀ lexeme ∈ tree.lexemes, lexeme.Legible environment.knownNames := by
  refine h.forall_lexemes ?_ ?_ ?_ ?_
  · exact fun c kind hsymbol => .symbol hsymbol
  · exact fun text hliteral => .literal hliteral
  · intro name hbound
    have hknown := Environment.isKnown_of_isBound hbound
    exact .variableName (hreachable.isIdentifier_of_isKnown hknown) hknown
      (Environment.length_le_longestName hknown)
  · exact fun name hfunction => .function (BuiltIn.isIdentifier_of_ofName? hfunction)

/-- Nobody has to be asked about the tokens. -/
theorem settled (h : tree.WellFormed environment phrase) {tokens : List Token}
    (htokens : tokens.map Token.lexeme = tree.lexemes) :
    ∀ token ∈ tokens, token.Settled environment := by
  have hall : ∀ lexeme ∈ tree.lexemes, ∀ position,
      (lexeme.tokenAt position).Settled environment := by
    refine h.forall_lexemes ?_ ?_ ?_ ?_
    · intro c kind hsymbol position
      have hword := TokenKind.isWord_of_ofSymbol? hsymbol
      refine ⟨fun hkind => ?_, fun hkind => ?_⟩
      · rw [show kind = .variableName from hkind] at hword
        cases hword
      · rw [show kind = .functionName from hkind] at hword
        cases hword
    · exact fun text _ position => ⟨nofun, nofun⟩
    · exact fun name hbound position => ⟨fun _ => hbound, nofun⟩
    · exact fun name hfunction position => ⟨nofun, fun _ => hfunction⟩
  intro token htoken
  exact hall token.lexeme (htokens ▸ List.mem_map_of_mem htoken) token.position

/-- The tokens may be written without a gap. -/
theorem joined (h : tree.WellFormed environment phrase) : Joined tree.lexemes := by
  have hclosing : Joined [⟨.rightParen, ")"⟩] := .singleton nofun
  induction h with
  | number => exact .singleton nofun
  | variableName => exact .singleton nofun
  | parenthesis _ ih => exact (ih.append hclosing rfl).cons_symbol rfl
  | application _ _ ih => exact ((ih.append hclosing rfl).cons_symbol rfl).cons ⟨nofun, fun _ => rfl⟩
  | negation _ ih => exact ih.cons_symbol rfl
  | productOfFactor _ ih => exact ih
  | sumOfProduct _ ih => exact ih
  | @product operator _ _ _ _ _ ihLeft ihRight | @sum operator _ _ _ _ _ ihLeft ihRight =>
      have hoperator := operator.followsOperand_lexeme
      exact ihLeft.append (ihRight.cons_symbol (TokenKind.isWord_of_followsOperand hoperator))
        hoperator

/-- Tokens of a sum in parentheses are a factor if those inside are a sum. -/
theorem derives_parenthesis {inner : Tree} {tokens : List Token}
    (hinner : ∀ {tokens}, tokens.map Token.lexeme = inner.lexemes → Derives .sum tokens inner)
    (htokens : tokens.map Token.lexeme = (Tree.parenthesis inner).lexemes) :
    Derives .factor tokens (.parenthesis inner) := by
  obtain ⟨opening, more, rfl, hopening, hmore⟩ := List.map_eq_cons_iff.1 htokens
  obtain ⟨between, last, rfl, hbetween, hlast⟩ := List.map_eq_append_iff.1 hmore
  obtain ⟨closing, rfl, hclosing⟩ := List.map_eq_singleton_iff.1 hlast
  exact .parenthesis (congrArg Lexeme.kind hopening) (hinner hbetween)
    (congrArg Lexeme.kind hclosing)

/-- The tokens are the phrase, with the tree. -/
theorem derives (h : tree.WellFormed environment phrase) {tokens : List Token}
    (htokens : tokens.map Token.lexeme = tree.lexemes) : Derives phrase tokens tree := by
  induction h generalizing tokens with
  | number =>
      obtain ⟨token, rfl, htoken⟩ := List.map_eq_singleton_iff.1 htokens
      obtain ⟨hkind, rfl⟩ := Lexeme.mk.inj htoken
      exact .number hkind
  | variableName =>
      obtain ⟨token, rfl, htoken⟩ := List.map_eq_singleton_iff.1 htokens
      obtain ⟨hkind, rfl⟩ := Lexeme.mk.inj htoken
      exact .variableName hkind
  | parenthesis _ ih => exact derives_parenthesis ih htokens
  | application _ _ ih =>
      obtain ⟨function, more, rfl, hfunction, hmore⟩ := List.map_eq_cons_iff.1 htokens
      obtain ⟨hkind, rfl⟩ := Lexeme.mk.inj hfunction
      exact .application hkind (derives_parenthesis ih hmore)
  | negation _ ih =>
      obtain ⟨sign, more, rfl, hsign, hmore⟩ := List.map_eq_cons_iff.1 htokens
      exact .negation (congrArg Lexeme.kind hsign) (ih hmore)
  | productOfFactor _ ih => exact .productOfFactor (ih htokens)
  | sumOfProduct _ ih => exact .sumOfProduct (ih htokens)
  | product hoperator _ _ ihLeft ihRight =>
      obtain ⟨before, more, rfl, hbefore, hmore⟩ := List.map_eq_append_iff.1 htokens
      obtain ⟨token, after, rfl, htoken, hafter⟩ := List.map_eq_cons_iff.1 hmore
      have hkind := Operator.multiplicative?_lexeme hoperator
      rw [← htoken] at hkind
      exact .product (ihLeft hbefore) hkind (ihRight hafter)
  | sum hoperator _ _ ihLeft ihRight =>
      obtain ⟨before, more, rfl, hbefore, hmore⟩ := List.map_eq_append_iff.1 htokens
      obtain ⟨token, after, rfl, htoken, hafter⟩ := List.map_eq_cons_iff.1 hmore
      have hkind := Operator.additive?_lexeme hoperator
      rw [← htoken] at hkind
      exact .sum (ihLeft hbefore) hkind (ihRight hafter)

end WellFormed

end Tree

/-! ## The value of the text -/

/-- A text in which a tree is written out is split into the tokens written, whatever the white
space between them, and its value is that of the tree. -/
theorem Evaluator.evaluate_of_written {ρ : Type} [Resolver ρ] {evaluator : Evaluator ρ}
    {tree : Tree} {tokens : List Token} (hreachable : evaluator.environment.Reachable)
    (htree : tree.WellFormed evaluator.environment .sum) (hroom : tree.openFactors ≤ nestingLimit)
    (hwritten : Written 0 tree.lexemes evaluator.expression.toList tokens) :
    (∃ sequence, evaluator.tokenize evaluator.expression = .ok sequence ∧
      sequence.body = tokens ∧ sequence.endPosition = evaluator.expression.length) ∧
    evaluator.evaluate.result = .ok (tree.value evaluator.environment.interpretation) := by
  have hpieces : Lexer.Pieces evaluator.environment.knownNames 0 evaluator.expression.toList
      tokens :=
    pieces_of_written hwritten (htree.legible hreachable) htree.joined
  obtain ⟨sequence, hlexed, rfl, hend⟩ := exists_tokenize_of_pieces hpieces
  -- The tokens are a sentence with the tree, and nobody has to be asked about them.
  have hsettled := htree.settled hwritten.map_lexeme
  have hsentence : Sentence sequence.body (some tree) :=
    .sum (htree.derives hwritten.map_lexeme)
  refine ⟨⟨sequence, ?_, rfl, hend⟩, ?_⟩
  · rw [tokenize, hlexed]
  · show (Evaluation.evaluateText evaluator.expression
      { environment := evaluator.environment, resolver := evaluator.resolver }).1 = _
    rw [Evaluation.evaluateText_of_tokenize hlexed]
    exact (Evaluation.evaluateTokens_of_settled (readable_of_tokenize hlexed) hsettled _).2
      ⟨some tree, hsentence, hroom, rfl⟩

/-- White space before the sign, inside the parentheses and at the end. -/
theorem Evaluator.evaluate_spaced_difference :
    (evaluate { expression := "pi -sin( x ) ",
                environment := Environment.initial.resetConventional.bind "x" 3,
                resolver := Silent.mk }).result
      = .ok (Float.ofBits 0x400921FB54442D18 - (3 : Float).sin) := by
  let evaluator : Evaluator Silent :=
    { expression := "pi -sin( x ) ",
      environment := Environment.initial.resetConventional.bind "x" 3, resolver := {} }
  let tree : Tree :=
    .operation .subtract (.variableName "pi")
      (.application "sin" (.parenthesis (.variableName "x")))
  have hreachable : evaluator.environment.Reachable :=
    .bind (.resetConventional .initial) "x" 3
  have hx : (Tree.variableName "x").WellFormed evaluator.environment .factor :=
    .variableName (by decide +kernel)
  have hpi : (Tree.variableName "pi").WellFormed evaluator.environment .factor :=
    .variableName (by decide +kernel)
  have htree : tree.WellFormed evaluator.environment .sum :=
    .sum rfl (.sumOfProduct (.productOfFactor hpi))
      (.productOfFactor (.application (by decide) (.sumOfProduct (.productOfFactor hx))))
  -- The text is written from its end, one token before the other.
  have hspace : ∀ c ∈ [' '], isWhiteSpace c := List.forall_mem_singleton.2 (by decide +kernel)
  have hempty : ∀ c ∈ [], isWhiteSpace c := List.forall_mem_nil _
  have hclosing : Written 10 [⟨.rightParen, ")"⟩] _ _ :=
    .cons hspace (fun hkind => nomatch hkind) (.nil hspace)
  have hopening : Written 7 (⟨.leftParen, "("⟩ :: ⟨.variableName, "x"⟩ :: _) _ _ :=
    .cons hempty (fun hkind => nomatch hkind)
      (.cons hspace (fun hkind => nomatch hkind) hclosing)
  have hparenthesis : ∀ c ∈ some '(', ¬ isWhiteSpace c := by
    intro c hc
    obtain rfl : '(' = c := Option.some.inj hc
    decide +kernel
  have hfunction : Written 4 (⟨.functionName, "sin"⟩ :: _) _ _ :=
    .cons hempty (by exact fun _ => hparenthesis) hopening
  have hsign : Written 2 (⟨.minus, "-"⟩ :: _) _ _ :=
    .cons hspace (fun hkind => nomatch hkind) hfunction
  have hdifference : Written 0 (⟨.variableName, "pi"⟩ :: _) _ _ :=
    .cons hempty (fun hkind => nomatch hkind) hsign
  obtain ⟨tokens, hwritten⟩ :
      ∃ tokens, Written 0 tree.lexemes evaluator.expression.toList tokens := by
    refine ⟨_, (congrArg (Written 0 tree.lexemes · _) ?_).mp hdifference⟩
    decide +kernel
  exact (Evaluator.evaluate_of_written hreachable htree (by decide) hwritten).2

end Reckoner
