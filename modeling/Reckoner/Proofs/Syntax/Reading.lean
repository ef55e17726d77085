/-
  Reckoner.Proofs.Syntax.Reading

  What reading a token does, in the two positions that a token can have.

  Where a factor has to begin, the token is a factor by itself (`Token.leaf?`), opens one
  (`Token.opens?`) or offends.  Where a factor has just ended, it is an operator, closes a
  parenthesis or offends.  `Reading` lists these cases and the ends of the tokens; what is proved
  for each of them holds of every program (`Reading.program`).
-/
import Reckoner.Proofs.Syntax.Grammar

namespace Reckoner

open Reckoner.Frame Program

/-! ## Tokens that begin a factor -/

/-- The step of a token that is a factor by itself. -/
def Token.leaf? (token : Token) : Option Step :=
  match token.kind with
  | .number =>
    match Numeral.read token.text with
    | .ok value => some (.literal value)
    | .error _ => none
  | .variableName => some (.load token.text)
  | _ => none

/-- The frame of a token that opens a factor. -/
def Token.opens? (token : Token) : Option Frame :=
  match token.kind with
  | .leftParen => some .parenthesis
  | .functionName => some (.function token.text)
  | .minus => some .sign
  | _ => none

theorem Token.leaf?_cases {token : Token} {step : Step} (h : token.leaf? = some step) :
    (token.kind = .number ∧
      ∃ value, Numeral.read token.text = .ok value ∧ step = .literal value) ∨
    (token.kind = .variableName ∧ step = .load token.text) := by
  rw [leaf?] at h
  split at h
  · next hkind =>
      split at h
      · next hread => exact .inl ⟨hkind, _, hread, (Option.some.inj h).symm⟩
      · cases h
  · next hkind => exact .inr ⟨hkind, (Option.some.inj h).symm⟩
  · cases h

theorem Token.opens?_cases {token : Token} {frame : Frame} (h : token.opens? = some frame) :
    (token.kind = .leftParen ∧ frame = .parenthesis) ∨
    (token.kind = .functionName ∧ frame = .function token.text) ∨
    (token.kind = .minus ∧ frame = .sign) := by
  rw [opens?] at h
  split at h
  · next hkind => exact .inl ⟨hkind, (Option.some.inj h).symm⟩
  · next hkind => exact .inr (.inl ⟨hkind, (Option.some.inj h).symm⟩)
  · next hkind => exact .inr (.inr ⟨hkind, (Option.some.inj h).symm⟩)
  · cases h

theorem Token.isFactor_of_opens? {token : Token} {frame : Frame} (h : token.opens? = some frame) :
    frame.isFactor := by
  rcases opens?_cases h with ⟨-, rfl⟩ | ⟨-, rfl⟩ | ⟨-, rfl⟩ <;> rfl

/-! ## Reading one token -/

namespace Program

variable {stop token : Token} {frames : List Frame}

theorem ofOperand_of_leaf? {step : Step} (h : token.leaf? = some step) (rest : List Token) :
    ofOperand stop frames (token :: rest)
      = prepend (.enter (opened frames) :: step :: (closeFactor frames).1)
          (ofOperator stop (closeFactor frames).2 rest) := by
  rw [ofOperand]
  rcases Token.leaf?_cases h with ⟨hkind, value, hread, rfl⟩ | ⟨hkind, rfl⟩
  · simp only [hkind, hread]
    rfl
  · simp only [hkind]
    rfl

theorem ofOperand_of_opens? {frame : Frame} (h : token.opens? = some frame) (rest : List Token) :
    ofOperand stop frames (token :: rest)
      = prepend [.enter (opened frames)] (ofOperand stop (frame :: frames) rest) := by
  rw [ofOperand]
  rcases Token.opens?_cases h with ⟨hkind, rfl⟩ | ⟨hkind, rfl⟩ | ⟨hkind, rfl⟩ <;>
    simp only [hkind]

theorem ofOperand_of_offends (hleaf : token.leaf? = none) (hopens : token.opens? = none)
    (rest : List Token) :
    ofOperand stop frames (token :: rest)
      = prepend [.enter (opened frames)] (halted token) := by
  rw [Token.leaf?] at hleaf
  rw [Token.opens?] at hopens
  rw [ofOperand]
  cases hkind : token.kind with
  | number =>
      cases hread : Numeral.read token.text with
      | ok value => simp [hkind, hread] at hleaf
      | error error => rfl
  | variableName => simp [hkind] at hleaf
  | leftParen | functionName | minus => simp [hkind] at hopens
  | rightParen | plus | star | slash | endOfInput => rfl

theorem ofOperator_of_multiplicative? {operator : Operator}
    (h : token.kind.multiplicative? = some operator) (rest : List Token) :
    ofOperator stop frames (token :: rest) = ofOperand stop (.product operator :: frames) rest := by
  unfold TokenKind.multiplicative? at h
  rw [ofOperator]
  split at h
  · next hkind => simp only [hkind, ← Option.some.inj h]
  · next hkind => simp only [hkind, ← Option.some.inj h]
  · cases h

theorem ofOperator_of_additive? {operator : Operator}
    (h : token.kind.additive? = some operator) (rest : List Token) :
    ofOperator stop frames (token :: rest)
      = prepend (closeProduct frames).1
          (ofOperand stop (.sum operator :: (closeProduct frames).2) rest) := by
  unfold TokenKind.additive? at h
  rw [ofOperator]
  split at h
  · next hkind => simp only [hkind, ← Option.some.inj h]
  · next hkind => simp only [hkind, ← Option.some.inj h]
  · cases h

theorem ofOperator_of_closes {outer : List Frame} (hkind : token.kind = .rightParen)
    (hclose : (closeProduct frames).2 = .parenthesis :: outer) (rest : List Token) :
    ofOperator stop frames (token :: rest)
      = prepend ((closeProduct frames).1 ++ (closeFactor outer).1)
          (ofOperator stop (closeFactor outer).2 rest) := by
  have hboth : closeProduct frames = ((closeProduct frames).1, .parenthesis :: outer) :=
    Prod.ext rfl hclose
  rw [ofOperator]
  simp only [hkind]
  rw [hboth]

/-- The token is no operator, and closes no parenthesis. -/
structure Offends (frames : List Frame) (token : Token) : Prop where
  multiplicative : token.kind.multiplicative? = none
  additive : token.kind.additive? = none
  closing : token.kind = .rightParen → ∀ outer, (closeProduct frames).2 ≠ .parenthesis :: outer

theorem ofOperator_of_offends (h : Offends frames token) (rest : List Token) :
    ofOperator stop frames (token :: rest) = halted token := by
  rw [ofOperator]
  cases hkind : token.kind with
  | star | slash => simpa [hkind, TokenKind.multiplicative?] using h.multiplicative
  | plus | minus => simpa [hkind, TokenKind.additive?] using h.additive
  | rightParen =>
      simp only
      split
      · next heq => exact absurd (congrArg Prod.snd heq) (h.closing hkind _)
      · rfl
  | number | variableName | leftParen | functionName | endOfInput => rfl

theorem ofOperator_nil_of_closed (hclose : (closeProduct frames).2 = []) :
    ofOperator stop frames [] = { steps := (closeProduct frames).1 } := by
  have hboth : closeProduct frames = ((closeProduct frames).1, []) := Prod.ext rfl hclose
  rw [ofOperator, hboth]

theorem ofOperator_nil_of_unclosed (hclose : (closeProduct frames).2 ≠ []) :
    ofOperator stop frames [] = halted stop := by
  rw [ofOperator]
  split
  · next heq => exact absurd (congrArg Prod.snd heq) hclose
  · rfl

end Program

/-! ## Reading all tokens -/

/-- Properties of the frames, the tokens to come and their program, the one for where a factor has
to begin and the other for where a factor has just ended, that reading a token hands on. -/
structure Reading (stop : Token) (operand operator : List Frame → List Token → Program → Prop) :
    Prop where
  operandEnd : ∀ frames, operand frames [] (prepend [.enter (opened frames)] (halted stop))
  leaf : ∀ frames token rest step program, token.leaf? = some step →
    operator (closeFactor frames).2 rest program →
    operand frames (token :: rest)
      (prepend (.enter (opened frames) :: step :: (closeFactor frames).1) program)
  opening : ∀ frames token rest frame program, token.opens? = some frame →
    operand (frame :: frames) rest program →
    operand frames (token :: rest) (prepend [.enter (opened frames)] program)
  operandOffends : ∀ frames token rest, token.leaf? = none → token.opens? = none →
    operand frames (token :: rest) (prepend [.enter (opened frames)] (halted token))
  closed : ∀ frames, (closeProduct frames).2 = [] →
    operator frames [] { steps := (closeProduct frames).1 }
  unclosed : ∀ frames, (closeProduct frames).2 ≠ [] → operator frames [] (halted stop)
  multiplicative : ∀ frames token rest op program, token.kind.multiplicative? = some op →
    operand (.product op :: frames) rest program → operator frames (token :: rest) program
  additive : ∀ frames token rest op program, token.kind.additive? = some op →
    operand (.sum op :: (closeProduct frames).2) rest program →
    operator frames (token :: rest) (prepend (closeProduct frames).1 program)
  closing : ∀ frames outer token rest program, token.kind = .rightParen →
    (closeProduct frames).2 = .parenthesis :: outer →
    operator (closeFactor outer).2 rest program →
    operator frames (token :: rest)
      (prepend ((closeProduct frames).1 ++ (closeFactor outer).1) program)
  operatorOffends : ∀ frames token rest, Offends frames token →
    operator frames (token :: rest) (halted token)

/-- What reading a token hands on holds of all programs.  The induction is on the tokens, for both
positions at once, since a token read in one of them leads to the other. -/
theorem Reading.program {stop : Token} {operand operator : List Frame → List Token → Program → Prop}
    (h : Reading stop operand operator) (tokens : List Token) :
    (∀ frames, operand frames tokens (ofOperand stop frames tokens)) ∧
    (∀ frames, operator frames tokens (ofOperator stop frames tokens)) := by
  induction tokens with
  | nil =>
      refine ⟨fun frames => ?_, fun frames => ?_⟩
      · rw [ofOperand]
        exact h.operandEnd frames
      · by_cases hclose : (closeProduct frames).2 = []
        · rw [ofOperator_nil_of_closed hclose]
          exact h.closed frames hclose
        · rw [ofOperator_nil_of_unclosed hclose]
          exact h.unclosed frames hclose
  | cons token rest ih =>
      obtain ⟨ihOperand, ihOperator⟩ := ih
      refine ⟨fun frames => ?_, fun frames => ?_⟩
      -- Where a factor has to begin.
      · cases hleaf : token.leaf? with
        | some step =>
            rw [ofOperand_of_leaf? hleaf]
            exact h.leaf _ _ _ _ _ hleaf (ihOperator _)
        | none =>
            cases hopens : token.opens? with
            | some frame =>
                rw [ofOperand_of_opens? hopens]
                exact h.opening _ _ _ _ _ hopens (ihOperand _)
            | none =>
                rw [ofOperand_of_offends hleaf hopens]
                exact h.operandOffends _ _ _ hleaf hopens
      -- Where a factor has just ended.
      · cases hmultiplicative : token.kind.multiplicative? with
        | some op =>
            rw [ofOperator_of_multiplicative? hmultiplicative]
            exact h.multiplicative _ _ _ _ _ hmultiplicative (ihOperand _)
        | none =>
            cases hadditive : token.kind.additive? with
            | some op =>
                rw [ofOperator_of_additive? hadditive]
                exact h.additive _ _ _ _ _ hadditive (ihOperand _)
            | none =>
                by_cases hcloses : token.kind = .rightParen ∧
                    ∃ outer, (closeProduct frames).2 = .parenthesis :: outer
                · obtain ⟨hkind, outer, hclose⟩ := hcloses
                  rw [ofOperator_of_closes hkind hclose]
                  exact h.closing _ _ _ _ _ hkind hclose (ihOperator _)
                · have hoffends : Offends frames token := ⟨hmultiplicative, hadditive,
                    fun hkind outer hclose => hcloses ⟨hkind, outer, hclose⟩⟩
                  rw [ofOperator_of_offends hoffends]
                  exact h.operatorOffends _ _ _ hoffends

end Reckoner
