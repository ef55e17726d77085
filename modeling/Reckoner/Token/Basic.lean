/-
  Reckoner.Token.Basic

  Tokens, and the sequences of tokens that an expression is read as.

  A `TokenSequence` holds the tokens before the end and the position of the end; the token
  that marks the end is never among the others, by type. `TokenSequence.toList` puts it last.
-/
import Reckoner.Decimal.Numeral

namespace Reckoner

/-- What a token is. -/
inductive TokenKind
  | leftParen
  | rightParen
  | plus
  | minus
  | star
  | slash
  | functionName
  | number
  | variableName
  | endOfInput
  deriving DecidableEq, Repr

namespace TokenKind

/-- The word by which a kind is shown. -/
def label : TokenKind → String
  | .leftParen => "LeftParen"
  | .rightParen => "RightParen"
  | .plus => "Plus"
  | .minus => "Minus"
  | .star => "Star"
  | .slash => "Slash"
  | .functionName => "Function"
  | .number => "Number"
  | .variableName => "Variable"
  | .endOfInput => "EndOfInput"

/-- The kinds, each once. -/
def all : List TokenKind :=
  [.leftParen, .rightParen, .plus, .minus, .star, .slash, .functionName, .number, .variableName,
    .endOfInput]

/-- The kind of the given label. -/
def ofLabel? (word : String) : Option TokenKind :=
  all.find? (·.label = word)

/-- The kind of a character that is a token by itself. -/
def ofSymbol? : Char → Option TokenKind
  | '(' => some .leftParen
  | ')' => some .rightParen
  | '+' => some .plus
  | '-' => some .minus
  | '*' => some .star
  | '/' => some .slash
  | _ => none

end TokenKind

/-- A token: its kind, the text it was read from and the position of that text, in characters. -/
structure Token where
  kind : TokenKind
  text : String
  position : Nat
  deriving DecidableEq, Repr

namespace Token

/-- The token at the end of a text. -/
def atEnd (position : Nat) : Token :=
  ⟨.endOfInput, "", position⟩

/-- How error messages name the token. -/
def describe (token : Token) : String :=
  if token.kind = .endOfInput then "end of input" else token.text

/-- The token with its kind. -/
def display (token : Token) : String :=
  token.kind.label ++ "('" ++ token.text ++ "')"

/-- The position just after the token's text. -/
def stop (token : Token) : Nat :=
  token.position + token.text.length

/-- The token with a number in place of the variable `name`. -/
def substitute (name : String) (value : Float) (token : Token) : Token :=
  if token.kind = .variableName ∧ token.text = name then
    { token with kind := .number, text := Numeral.ofFloat value }
  else token

/-- A variable that is substituted becomes a number in the same place. -/
theorem substitute_eq {token : Token} {name : String} (hkind : token.kind = .variableName)
    (hname : token.text = name) (value : Float) :
    token.substitute name value
      = { token with kind := .number, text := Numeral.ofFloat value } :=
  if_pos ⟨hkind, hname⟩

theorem substitute_of_ne {token : Token} {name : String}
    (h : token.kind = .variableName → token.text ≠ name) (value : Float) :
    token.substitute name value = token :=
  if_neg fun hvariable => h hvariable.1 hvariable.2

theorem substitute_kind_ne_endOfInput {token : Token} (name : String) (value : Float)
    (h : token.kind ≠ .endOfInput) : (token.substitute name value).kind ≠ .endOfInput := by
  unfold substitute
  split
  · simp
  · exact h

end Token

/-- The tokens of a text, with the position of its end. -/
structure TokenSequence where
  body : List Token
  endPosition : Nat
  body_kind : ∀ token ∈ body, token.kind ≠ .endOfInput
  deriving DecidableEq

namespace TokenSequence

/-- The tokens, the one at the end included. -/
def toList (tokens : TokenSequence) : List Token :=
  tokens.body ++ [Token.atEnd tokens.endPosition]

/-- The sequence of the given tokens. Those that mark an end are left out; the end comes just
after the last of the others. -/
def ofList (tokens : List Token) : TokenSequence :=
  let body := tokens.filter (·.kind ≠ .endOfInput)
  { body
    endPosition := (body.getLast?.map Token.stop).getD 0
    body_kind := fun _ member => of_decide_eq_true (List.mem_filter.1 member).2 }

/-- The sequence with a number in place of each occurrence of the variable `name`. -/
def substitute (tokens : TokenSequence) (name : String) (value : Float) : TokenSequence :=
  { body := tokens.body.map (Token.substitute name value)
    endPosition := tokens.endPosition
    body_kind := fun token member => by
      obtain ⟨old, isOld, rfl⟩ := List.mem_map.1 member
      exact Token.substitute_kind_ne_endOfInput name value (tokens.body_kind old isOld) }

/-- The sequence after several substitutions, one after the other. -/
def substituteAll (tokens : TokenSequence) (values : List (String × Float)) : TokenSequence :=
  values.foldl (fun tokens value => tokens.substitute value.1 value.2) tokens

end TokenSequence

end Reckoner
