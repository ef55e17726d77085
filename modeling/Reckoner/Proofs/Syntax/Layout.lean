/-
  Reckoner.Proofs.Syntax.Layout

  Texts in which given tokens are written out, with white space around them.

  Any amount of white space may stand before each token and at the end, none included, but not
  between the name of a function and what comes after it (`Written`).  A token that is written
  without a gap must not run on into the next one: a literal and a variable end at an operator or
  a closing parenthesis, a function at an opening one (`Lexeme.Fits`).  Where neighbours fit, the
  text is split into the tokens that were written (`pieces_of_written`).
-/
import Mathlib.Data.List.Chain
import Reckoner.Environment
import Reckoner.Proofs.Syntax.Grammar
import Reckoner.Proofs.Token.Pieces

namespace Reckoner

open Unicode

/-- Whether a token of the kind may stand right after an operand: an operator, or the end of a
parenthesis. -/
def TokenKind.followsOperand (kind : TokenKind) : Bool :=
  kind.multiplicative?.isSome || kind.additive?.isSome || kind = .rightParen

/-! ## Lexemes -/

/-- A token without its place: what it is, and its text. -/
structure Lexeme where
  kind : TokenKind
  text : String
  deriving DecidableEq, Repr

/-- What the token is, wherever it stands. -/
def Token.lexeme (token : Token) : Lexeme :=
  ⟨token.kind, token.text⟩

namespace Lexeme

/-- The token at a position. -/
def tokenAt (lexeme : Lexeme) (position : Nat) : Token :=
  ⟨lexeme.kind, lexeme.text, position⟩

/-- The text can be that of a token of the kind, and a variable is a name that is looked for. -/
inductive Legible (names : KnownNames) : Lexeme → Prop
  | symbol {c : Char} {kind : TokenKind} (hsymbol : TokenKind.ofSymbol? c = some kind) :
      Legible names ⟨kind, String.singleton c⟩
  | literal {text : String} (hliteral : Lexer.IsLiteral text.toList) :
      Legible names ⟨.number, text⟩
  | function {name : String} (hname : isIdentifier name) : Legible names ⟨.functionName, name⟩
  | variableName {name : String} (hname : isIdentifier name) (hknown : names.isKnown name)
      (hlength : name.length ≤ names.longest) : Legible names ⟨.variableName, name⟩

/-- The second may be written right after the first. -/
structure Fits (first second : Lexeme) : Prop where
  operand : first.kind = .number ∨ first.kind = .variableName → second.kind.followsOperand
  function : first.kind = .functionName → second.kind = .leftParen

/-- What comes after the text of the lexeme does not continue it, and makes it what it is. -/
structure Bounded (lexeme : Lexeme) (rest : List Char) : Prop where
  operand : lexeme.kind = .number ∨ lexeme.kind = .variableName →
    ∀ c ∈ rest.head?, ¬ Lexer.isNumeralChar c ∧ ¬ isAlphabetic c ∧ c ≠ '('
  function : lexeme.kind = .functionName → rest.head? = some '('

end Lexeme

theorem isIdentifier_iff {name : String} :
    isIdentifier name ↔ name.toList ≠ [] ∧ ∀ c ∈ name.toList, isAlphabetic c := by
  simp [isIdentifier]

namespace Lexeme.Legible

variable {names : KnownNames} {lexeme : Lexeme}

theorem toList_ne_nil (h : lexeme.Legible names) : lexeme.text.toList ≠ [] := by
  cases h with
  | symbol hsymbol => simp
  | literal hliteral =>
      obtain ⟨first, more, -, hcons⟩ := hliteral.exists_cons
      rw [hcons]
      exact List.cons_ne_nil _ _
  | function hname => exact (isIdentifier_iff.1 hname).1
  | variableName hname => exact (isIdentifier_iff.1 hname).1

/-- A lexeme that its surroundings do not change is a piece of a text. -/
theorem piece (h : lexeme.Legible names) {rest : List Char} (hbounded : lexeme.Bounded rest)
    (position : Nat) :
    Lexer.Piece names position lexeme.text.toList rest [lexeme.tokenAt position] := by
  have htext : lexeme.tokenAt position
      = ⟨lexeme.kind, String.ofList lexeme.text.toList, position⟩ := by
    rw [String.ofList_toList]
    rfl
  cases h with
  | symbol hsymbol =>
      rw [String.toList_singleton]
      exact .symbol hsymbol
  | literal hliteral =>
      rw [htext]
      exact .literal hliteral fun c hc => (hbounded.operand (.inl rfl) c hc).1
  | function hname =>
      obtain ⟨hne, halphabetic⟩ := isIdentifier_iff.1 hname
      rw [htext]
      exact .function hne halphabetic (hbounded.function rfl)
  | @variableName name hname hknown hlength =>
      obtain ⟨hne, halphabetic⟩ := isIdentifier_iff.1 hname
      have hrest := hbounded.operand (.inr rfl)
      -- The word ends with the name, and no longer name begins it.
      have hlongest : Lexer.LongestName names (name.toList ++ []) name.toList := by
        rw [List.append_nil]
        exact {
          nonempty := hne
          begins := List.prefix_rfl
          known := by rwa [String.ofList_toList]
          length_le := by rwa [String.length_toList]
          longest := fun other hother _ _ => hother.length_le }
      have hsplits : Lexer.Splits names position (name.toList ++ []) _ := .cons hlongest .nil
      rw [List.append_nil] at hsplits
      rw [htext]
      exact .word hne halphabetic (fun c hc => (hrest c hc).2.1)
        (fun hparen => (hrest '(' hparen).2.2 rfl) hsplits

/-- An operator and a closing parenthesis end an operand. -/
theorem head_of_followsOperand (h : lexeme.Legible names) (hkind : lexeme.kind.followsOperand)
    {c : Char} (hc : lexeme.text.toList.head? = some c) :
    ¬ Lexer.isNumeralChar c ∧ ¬ isAlphabetic c ∧ c ≠ '(' := by
  cases h with
  | @symbol c' kind hsymbol =>
      obtain rfl : c' = c := by simpa using hc
      obtain ⟨-, hnumeral, halphabetic⟩ := TokenKind.not_of_ofSymbol? hsymbol
      refine ⟨hnumeral, halphabetic, ?_⟩
      rintro rfl
      obtain rfl : TokenKind.leftParen = kind := Option.some.inj hsymbol
      exact absurd hkind (by decide)
  | literal | function | variableName => exact absurd hkind Bool.false_ne_true

theorem text_of_leftParen (h : lexeme.Legible names) (hkind : lexeme.kind = .leftParen) :
    lexeme.text.toList.head? = some '(' := by
  cases h with
  | @symbol c kind hsymbol =>
      obtain rfl : kind = .leftParen := hkind
      have hc : c = '(' := by
        unfold TokenKind.ofSymbol? at hsymbol
        split at hsymbol <;> simp_all
      rw [hc]
      rfl
  | literal | function | variableName => cases hkind

end Lexeme.Legible

/-! ## Lexemes one after the other -/

theorem Lexeme.fits_of_isWord_eq_false {first : Lexeme} (h : first.kind.isWord = false)
    (second : Lexeme) : first.Fits second where
  operand := by
    rintro (hkind | hkind)
    · rw [hkind] at h
      cases h
    · rw [hkind] at h
      cases h
  function := by
    intro hkind
    rw [hkind] at h
    cases h

theorem TokenKind.isWord_of_followsOperand {kind : TokenKind} (h : kind.followsOperand) :
    kind.isWord = false := by
  cases kind with
  | number | variableName | functionName => exact absurd h Bool.false_ne_true
  | leftParen | rightParen | plus | minus | star | slash | endOfInput => rfl

/-- The lexemes may be written without a gap: each fits what it stands before, and the last one is
no function without an argument. -/
structure Joined (lexemes : List Lexeme) : Prop where
  fits : lexemes.IsChain Lexeme.Fits
  last : ∀ lexeme ∈ lexemes.getLast?, lexeme.kind ≠ .functionName

namespace Joined

variable {lexeme : Lexeme} {lexemes more : List Lexeme}

theorem head_fits (h : Joined (lexeme :: lexemes)) : ∀ next ∈ lexemes.head?, lexeme.Fits next :=
  (List.isChain_cons.1 h.fits).1

theorem ne_nil_of_function (h : Joined (lexeme :: lexemes)) (hkind : lexeme.kind = .functionName) :
    lexemes ≠ [] := by
  rintro rfl
  exact h.last lexeme rfl hkind

theorem tail (h : Joined (lexeme :: lexemes)) : Joined lexemes where
  fits := (List.isChain_cons.1 h.fits).2
  last := by
    intro last hlast
    refine h.last last ?_
    rw [List.getLast?_cons, Option.mem_def.1 hlast]
    rfl

theorem singleton (h : lexeme.kind ≠ .functionName) : Joined [lexeme] where
  fits := .singleton _
  last := by
    intro last hlast
    obtain rfl : lexeme = last := Option.some.inj hlast
    exact h

theorem cons {next : Lexeme} (h : Joined (next :: lexemes)) (hfits : lexeme.Fits next) :
    Joined (lexeme :: next :: lexemes) where
  fits := .cons_cons hfits h.fits
  last := by
    intro last hlast
    rw [List.getLast?_cons_cons] at hlast
    exact h.last last hlast

/-- A symbol may stand before anything. -/
theorem cons_symbol (h : Joined lexemes) (hkind : lexeme.kind.isWord = false) :
    Joined (lexeme :: lexemes) := by
  rcases lexemes with _ | ⟨next, lexemes⟩
  · refine singleton fun hfunction => ?_
    rw [hfunction] at hkind
    cases hkind
  · exact h.cons (Lexeme.fits_of_isWord_eq_false hkind next)

/-- What may follow an operand may follow joined lexemes. -/
theorem append (h : Joined lexemes) (hmore : Joined (lexeme :: more))
    (hkind : lexeme.kind.followsOperand) : Joined (lexemes ++ lexeme :: more) where
  fits := by
    refine List.isChain_append.2 ⟨h.fits, hmore.fits, fun last hlast next hnext => ?_⟩
    obtain rfl : lexeme = next := Option.some.inj hnext
    exact ⟨fun _ => hkind, fun hfunction => absurd hfunction (h.last last hlast)⟩
  last := by
    intro last hlast
    rw [List.getLast?_append_of_ne_nil _ (List.cons_ne_nil _ _)] at hlast
    exact hmore.last last hlast

end Joined

/-! ## Layouts -/

/-- Lexemes written out from a position on: the text, and the tokens that stand in it.  Each has a
gap of white space before it, empty or not, and so has the end; only the name of a function has
none after it. -/
inductive Written : Nat → List Lexeme → List Char → List Token → Prop
  | nil {position : Nat} {gap : List Char} (hgap : ∀ c ∈ gap, isWhiteSpace c) :
      Written position [] gap []
  | cons {position : Nat} {gap text : List Char} {lexeme : Lexeme} {lexemes : List Lexeme}
      {tokens : List Token} (hgap : ∀ c ∈ gap, isWhiteSpace c)
      (hcall : lexeme.kind = .functionName → ∀ c ∈ text.head?, ¬ isWhiteSpace c)
      (hrest : Written (position + gap.length + lexeme.text.length) lexemes text tokens) :
      Written position (lexeme :: lexemes) (gap ++ (lexeme.text.toList ++ text))
        (lexeme.tokenAt (position + gap.length) :: tokens)

namespace Written

variable {names : KnownNames} {position : Nat} {lexemes : List Lexeme} {text : List Char}
  {tokens : List Token}

theorem map_lexeme (h : Written position lexemes text tokens) :
    tokens.map Token.lexeme = lexemes := by
  induction h with
  | nil => rfl
  | cons _ _ _ ih => rw [List.map_cons, ih]; rfl

/-- The text of what is written begins with white space or with the first lexeme. -/
theorem head?_eq {next : Lexeme} (h : Written position (next :: lexemes) text tokens)
    (hnext : next.text.toList ≠ []) :
    ∃ c, text.head? = some c ∧ (isWhiteSpace c ∨ next.text.toList.head? = some c) := by
  cases h with
  | @cons _ gap _ _ _ _ hgap _ _ =>
      rcases gap with _ | ⟨c, gap⟩
      · obtain ⟨c, more, hcons⟩ := List.exists_cons_of_ne_nil hnext
        rw [hcons]
        exact ⟨c, rfl, .inr rfl⟩
      · exact ⟨c, rfl, .inl (hgap c List.mem_cons_self)⟩

/-- White space ends an operand. -/
theorem not_of_isWhiteSpace {c : Char} (h : isWhiteSpace c) :
    ¬ Lexer.isNumeralChar c ∧ ¬ isAlphabetic c ∧ c ≠ '(' := by
  refine ⟨fun hnumeral => (Lexer.not_of_isNumeralChar hnumeral).1 h,
    not_isAlphabetic_of_isWhiteSpace h, ?_⟩
  rintro rfl
  exact absurd h (by decide +kernel)

/-- What is written after a lexeme bounds it, if the next one fits. -/
theorem bounded {lexeme : Lexeme} (h : Written position lexemes text tokens)
    (hlegible : ∀ next ∈ lexemes, next.Legible names)
    (hfits : ∀ next ∈ lexemes.head?, lexeme.Fits next)
    (hcall : lexeme.kind = .functionName → lexemes ≠ [] ∧ ∀ c ∈ text.head?, ¬ isWhiteSpace c) :
    lexeme.Bounded text := by
  cases h with
  | nil hgap =>
      refine ⟨fun _ c hc => ?_, fun hkind => absurd rfl (hcall hkind).1⟩
      exact not_of_isWhiteSpace (hgap c (List.mem_of_mem_head? hc))
  | @cons _ gap text next lexemes tokens hgap hnext hrest =>
      have hlegible' : next.Legible names := hlegible next List.mem_cons_self
      have hfits' : lexeme.Fits next := hfits next rfl
      obtain ⟨c, hhead, hc⟩ :=
        (Written.cons hgap hnext hrest).head?_eq hlegible'.toList_ne_nil
      refine ⟨fun hkind c' hc' => ?_, fun hkind => ?_⟩
      · obtain rfl : c = c' := by
          rw [hhead] at hc'
          exact Option.some.inj hc'
        rcases hc with hwhite | hc
        · exact not_of_isWhiteSpace hwhite
        · exact hlegible'.head_of_followsOperand (hfits'.operand hkind) hc
      · rcases hc with hwhite | hc
        · exact absurd hwhite ((hcall hkind).2 c hhead)
        · rw [hhead, ← hc]
          exact hlegible'.text_of_leftParen (hfits'.function hkind)

end Written

/-- White space before the pieces of a text. -/
theorem Lexer.Pieces.gap {names : KnownNames} {gap text : List Char} {tokens : List Token}
    (hgap : ∀ c ∈ gap, isWhiteSpace c) {position : Nat}
    (h : Lexer.Pieces names (position + gap.length) text tokens) :
    Lexer.Pieces names position (gap ++ text) tokens := by
  induction gap generalizing position with
  | nil => exact h
  | cons c gap ih =>
      refine .whiteSpace (hgap c List.mem_cons_self)
        (ih (fun c' hc' => hgap c' (List.mem_cons_of_mem _ hc')) ?_)
      rwa [List.length_cons, Nat.add_comm gap.length, ← Nat.add_assoc] at h

/-- What is written is read, token by token, if it is joined. -/
theorem pieces_of_written {names : KnownNames} {position : Nat} {lexemes : List Lexeme}
    {text : List Char} {tokens : List Token} (h : Written position lexemes text tokens)
    (hlegible : ∀ lexeme ∈ lexemes, lexeme.Legible names) (hjoined : Joined lexemes) :
    Lexer.Pieces names position text tokens := by
  induction h with
  | @nil position gap hgap =>
      have hpieces : Lexer.Pieces names position (gap ++ []) [] := .gap hgap .nil
      rwa [List.append_nil] at hpieces
  | @cons position gap text lexeme lexemes tokens hgap hcall hrest ih =>
      have hlegible' : ∀ next ∈ lexemes, next.Legible names :=
        fun next hnext => hlegible next (List.mem_cons_of_mem _ hnext)
      -- The lexeme ends where it does, whatever is written after it.
      have hbounded : lexeme.Bounded text :=
        hrest.bounded hlegible' hjoined.head_fits fun hkind =>
          ⟨hjoined.ne_nil_of_function hkind, hcall hkind⟩
      have hpiece := (hlegible lexeme List.mem_cons_self).piece hbounded (position + gap.length)
      have hpieces := ih hlegible' hjoined.tail
      rw [← String.length_toList] at hpieces
      exact .gap hgap (.piece hpiece hpieces)

/-! ## The tokens of a tree -/

namespace Operator

/-- The token of the operator. -/
def lexeme : Operator → Lexeme
  | .add => ⟨.plus, "+"⟩
  | .subtract => ⟨.minus, "-"⟩
  | .multiply => ⟨.star, "*"⟩
  | .divide => ⟨.slash, "/"⟩

/-- The phrase that the operator makes of its two sides. -/
def phrase : Operator → Phrase
  | .add | .subtract => .sum
  | .multiply | .divide => .product

theorem multiplicative?_lexeme {operator : Operator} (h : operator.phrase = .product) :
    operator.lexeme.kind.multiplicative? = some operator := by
  cases operator with
  | add | subtract => cases h
  | multiply | divide => rfl

theorem additive?_lexeme {operator : Operator} (h : operator.phrase = .sum) :
    operator.lexeme.kind.additive? = some operator := by
  cases operator with
  | add | subtract => rfl
  | multiply | divide => cases h

theorem followsOperand_lexeme (operator : Operator) : operator.lexeme.kind.followsOperand := by
  cases operator <;> rfl

end Operator

namespace Tree

/-- The tokens of a tree from left to right, with parentheses exactly where the tree has them. -/
def lexemes : Tree → List Lexeme
  | .number text => [⟨.number, text⟩]
  | .variableName name => [⟨.variableName, name⟩]
  | .parenthesis inner => ⟨.leftParen, "("⟩ :: (inner.lexemes ++ [⟨.rightParen, ")"⟩])
  | .application function argument => ⟨.functionName, function⟩ :: argument.lexemes
  | .negation operand => ⟨.minus, "-"⟩ :: operand.lexemes
  | .operation operator left right => left.lexemes ++ operator.lexeme :: right.lexemes

end Tree

end Reckoner
