/-
  Reckoner.Token.Lexer

  How a text is split into tokens.

  White space is skipped, the six symbols stand for themselves, and a digit begins a numeral.
  Anything else must begin a word, a maximal run of alphabetic characters. A word right before
  an opening parenthesis names a function as a whole. Any other word is split into variables,
  each the longest known name that the rest of the word begins with, so `pix` is `pi` and `x`.
-/
import Reckoner.Error
import Reckoner.KnownNames
import Reckoner.Token.Basic
import Reckoner.Unicode.Alphabetic
import Reckoner.Unicode.WhiteSpace

namespace Reckoner

open Unicode

/-- What has been read of a text: the tokens, and the fault that stopped the reading, if any. -/
structure Scan where
  tokens : List Token := []
  fault : Option LexError := none

namespace Scan

/-- The scan with a token put before the others. -/
def cons (token : Token) (scan : Scan) : Scan :=
  { scan with tokens := token :: scan.tokens }

/-- A scan continued by another, which is not reached if the first one stops. -/
def append (first second : Scan) : Scan :=
  match first.fault with
  | some fault => { first with fault := some fault }
  | none => { tokens := first.tokens ++ second.tokens, fault := second.fault }

/-- A scan stopped by a fault before any token. -/
def stopped (fault : LexError) : Scan :=
  { fault := some fault }

end Scan

namespace Lexer

/-! ## Words -/

/-- By how many characters the longest known name that begins `window` goes beyond its first
character. Only names of at most `bound` characters are tried. -/
def knownExtent? (names : KnownNames) (window : List Char) : Nat → Option Nat
  | 0 => none
  | bound + 1 =>
    if names.isKnown (String.ofList (window.take (bound + 1))) then some bound
    else knownExtent? names window bound

/-- The variables of a word that starts at `position`: the longest known name first, and again
from where it ends. Names are looked for in a window of `names.longest` characters. -/
def splitWord (names : KnownNames) (position : Nat) : List Char → Scan
  | [] => {}
  | first :: rest =>
    let word := first :: rest
    let window := word.take names.longest
    match knownExtent? names window window.length with
    | some extent =>
      (splitWord names (position + (extent + 1)) (rest.drop extent)).cons
        ⟨.variableName, String.ofList (word.take (extent + 1)), position⟩
    | none => .stopped (.unrecognizedIdentifier (String.ofList word) position)
  termination_by word => word.length
  decreasing_by
    rw [List.length_drop, List.length_cons]
    omega

/-! ## Numerals -/

/-- Whether a character continues a numeral. -/
def isNumeralChar (c : Char) : Bool :=
  c.isDigit || c = '.'

/-! ## Texts -/

/-- The tokens of the text that starts at `position`. -/
def scan (names : KnownNames) (position : Nat) : List Char → Scan
  | [] => {}
  | first :: rest =>
    if isWhiteSpace first then
      scan names (position + 1) rest
    else
      match TokenKind.ofSymbol? first with
      | some kind => (scan names (position + 1) rest).cons ⟨kind, String.singleton first, position⟩
      | none =>
        if first.isDigit then
          -- The whole run is one literal; a second point makes it faulty, not shorter.
          let literal := first :: rest.takeWhile isNumeralChar
          if 1 < literal.count '.' then
            .stopped (.malformedNumber (String.ofList literal) position)
          else
            (scan names (position + literal.length) (rest.dropWhile isNumeralChar)).cons
              ⟨.number, String.ofList literal, position⟩
        else if isAlphabetic first then
          let word := first :: rest.takeWhile isAlphabetic
          let after := rest.dropWhile isAlphabetic
          -- Only a parenthesis right after the word makes it the name of a function.
          if after.head? = some '(' then
            (scan names (position + word.length) after).cons
              ⟨.functionName, String.ofList word, position⟩
          else
            (splitWord names position word).append (scan names (position + word.length) after)
        else
          .stopped (.unexpectedCharacter first position)
  termination_by text => text.length
  decreasing_by
    all_goals
      have numeral := (List.dropWhile_sublist isNumeralChar (l := rest)).length_le
      have word := (List.dropWhile_sublist isAlphabetic (l := rest)).length_le
      simp only [List.length_cons]
      omega

/-! ## No token of a text is the end -/

theorem kind_of_mem_splitWord {names : KnownNames} {position : Nat} {word : List Char}
    {token : Token} (h : token ∈ (splitWord names position word).tokens) :
    token.kind = .variableName := by
  fun_induction splitWord names position word with
  | case1 => simp at h
  | case2 position first rest word window extent _ ih =>
    rcases List.mem_cons.1 h with rfl | h
    · rfl
    · exact ih h
  | case3 => simp [Scan.stopped] at h

theorem ofSymbol?_ne_endOfInput {c : Char} {kind : TokenKind}
    (h : TokenKind.ofSymbol? c = some kind) : kind ≠ .endOfInput := by
  unfold TokenKind.ofSymbol? at h
  split at h <;> simp_all <;> (subst h; decide)

theorem kind_of_mem_scan {names : KnownNames} {position : Nat} {text : List Char}
    {token : Token} (h : token ∈ (scan names position text).tokens) :
    token.kind ≠ .endOfInput := by
  fun_induction scan names position text with
  | case1 => simp at h
  | case2 position first rest _ ih => exact ih h
  | case3 position first rest _ kind isSymbol ih =>
    rcases List.mem_cons.1 h with rfl | h
    · exact ofSymbol?_ne_endOfInput isSymbol
    · exact ih h
  | case4 => simp [Scan.stopped] at h
  | case5 position first rest _ _ _ literal _ ih =>
    rcases List.mem_cons.1 h with rfl | h
    · simp
    · exact ih h
  | case6 position first rest _ _ _ _ word after _ ih =>
    rcases List.mem_cons.1 h with rfl | h
    · simp
    · exact ih h
  | case7 position first rest _ _ _ _ word after _ ih =>
    have split : token ∈ (splitWord names position word).tokens ∨
        token ∈ (scan names (position + word.length) after).tokens := by
      unfold Scan.append at h
      split at h
      · exact .inl h
      · exact List.mem_append.1 h
    rcases split with h | h
    · rw [kind_of_mem_splitWord h]
      decide
    · exact ih h
  | case8 => simp [Scan.stopped] at h

end Lexer

/-! ## Reading a text -/

/-- The tokens of a text, or the first fault in it. -/
def tokenize (names : KnownNames) (text : String) : Except LexError TokenSequence :=
  let scan := Lexer.scan names 0 text.toList
  match scan.fault with
  | some fault => .error fault
  | none =>
    .ok
      { body := scan.tokens
        endPosition := text.length
        body_kind := fun _ member => Lexer.kind_of_mem_scan member }

/-! ## Windows and 64-bit positions

A name is looked for in a window of `longest` characters from the position reached in its word.
Where positions are 64-bit words, the end of the window has to be one too, before it is cut to
the end of the word. -/

/-- The least number that is no 64-bit word. -/
def wordBound : Nat := 2 ^ 64

namespace Scan

/-- The positions from which a variable was looked for: the variables found, and the rest of a
word that begins with none. -/
def windowStarts (scan : Scan) : List Nat :=
  (scan.tokens.filter (·.kind = .variableName)).map Token.position ++
    match scan.fault with
    | some (.unrecognizedIdentifier _ position) => [position]
    | _ => []

end Scan

/-- The tokens of a text or its first fault, or nothing if the end of a window is no 64-bit word. -/
def tokenizeInWords? (names : KnownNames) (text : String) : Option (Except LexError TokenSequence) :=
  if (Lexer.scan names 0 text.toList).windowStarts.all (· + names.longest < wordBound) then
    some (tokenize names text)
  else none

end Reckoner
