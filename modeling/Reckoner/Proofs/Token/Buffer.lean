/-
  Reckoner.Proofs.Token.Buffer

  The reading of a text as a machine does it: with a buffer of characters, a position in it, and
  numbers of a fixed size.

  Nothing is taken for granted here.  A sum may be too large for its type, a slice may lie outside
  the buffer or cut a character in two, and a loop may go on for ever; and whoever knows the names
  may answer a question in another way each time (`Supplier`).  So a run ends with a value, is
  halted by a fault of the text, breaks down at an operation, or has no outcome.
-/
import Reckoner.Decimal.Numeral
import Reckoner.Token.Lexer

namespace Reckoner.Buffer

open Unicode

/-! ## Runs -/

/-- What becomes of a sum that is too large for its type. -/
inductive Arithmetic
  /-- The program breaks down. -/
  | checked
  /-- The sum begins anew. -/
  | wrapping
  deriving DecidableEq

/-- The operation at which a program breaks down. -/
inductive Breakdown
  /-- The sum of two words is no word. -/
  | sum (first second : Nat)
  /-- One point more than can be counted. -/
  | count
  /-- No character stands at the position. -/
  | index (position : Nat)
  /-- The slice does not lie in the buffer. -/
  | slice (start stop : Nat)
  /-- The slice of a text ends beyond it or within a character. -/
  | bytes (stop : Nat)
  deriving DecidableEq

/-- Why a run ends without a value. -/
inductive Halt
  | fault (error : LexError)
  | breakdown (cause : Breakdown)
  deriving DecidableEq

/-- A run that ends with a value or is halted. One that goes on for ever has no outcome. -/
abbrev Run (α : Type) := ExceptT Halt Option α

/-! ## Operations that may break down -/

/-- The sum of two words. -/
def add (arithmetic : Arithmetic) (first second : Nat) : Run Nat :=
  if first + second < wordBound then return first + second
  else
    match arithmetic with
    | .checked => throw (.breakdown (.sum first second))
    | .wrapping => return (first + second) % wordBound

/-- One point more. Points are counted in 32 bits, one of them for the sign. -/
def increment (arithmetic : Arithmetic) (points : Int32) : Run Int32 :=
  if arithmetic = .checked ∧ points = Int32.maxValue then throw (.breakdown .count)
  else return points + 1

/-- The least number of points that cannot be counted. -/
def pointBound : Nat := 2 ^ 31

/-- The characters of a buffer from `start` to before `stop`. -/
def slice (chars : List Char) (start stop : Nat) : Run (List Char) :=
  if start ≤ stop ∧ stop ≤ chars.length then return chars.extract start stop
  else throw (.breakdown (.slice start stop))

/-- The characters of a text that its first bytes are. -/
def bytesFront? : Nat → List Char → Option (List Char)
  | 0, _ => some []
  | _ + 1, [] => none
  | bytes + 1, c :: rest =>
    if c.utf8Size ≤ bytes + 1 then (bytesFront? (bytes + 1 - c.utf8Size) rest).map (c :: ·)
    else none

/-- The first bytes of a text, as a text. -/
def sliceBytes (text : List Char) (stop : Nat) : Run (List Char) :=
  match bytesFront? stop text with
  | some front => return front
  | none => throw (.breakdown (.bytes stop))

/-! ## Reading -/

variable {σ : Type}

/-- Whoever knows the names. The answer to a question may depend on those before, and the bound on
their length may be any word. -/
structure Supplier (σ : Type) where
  isKnown : σ → String → Bool × σ
  longest : UInt64

/-- The supplier knows these names, whatever it has been asked before. -/
structure Supplier.Knows (supplier : Supplier σ) (names : KnownNames) : Prop where
  isKnown : ∀ state name, (supplier.isKnown state name).1 = names.isKnown name
  longest : supplier.longest.toNat = names.longest

namespace Supplier

/-- Whoever knows the members of a list, under a bound of any choice. -/
def ofList (members : List String) (longest : UInt64) : Supplier Unit where
  isKnown _ name := (members.contains name, ())
  longest := longest

theorem knows_ofList (members : List String) (longest : UInt64) :
    (ofList members longest).Knows (.ofList members longest.toNat) where
  isKnown _ _ := rfl
  longest := rfl

end Supplier

/-- What a reading is done with. -/
structure Source (σ : Type) where
  arithmetic : Arithmetic
  chars : List Char
  supplier : Supplier σ

/-- How far a reading has got: the position, the tokens so far, and what the answers of the supplier
depend on. -/
structure Reader (σ : Type) where
  position : Nat
  tokens : List Token := []
  state : σ

/-- The characters of a text, each with the number of bytes before it. -/
def charOffsets : Nat → List Char → List (Nat × Char)
  | _, [] => []
  | offset, c :: rest => (offset, c) :: charOffsets (offset + c.utf8Size) rest

namespace Source

/-- The position after the digits and points at a position, and the number of points. -/
def passNumeral (source : Source σ) (position : Nat) (points : Int32) : Run (Nat × Int32) := do
  match source.chars[position]? with
  | none => return (position, points)
  | some c =>
    if c.isDigit then
      let position ← add source.arithmetic position 1
      source |>.passNumeral position points
    else if c = '.' then
      let points ← increment source.arithmetic points
      let position ← add source.arithmetic position 1
      source |>.passNumeral position points
    else return (position, points)
  partial_fixpoint

/-- Reads a literal. -/
def readLiteral (source : Source σ) (reader : Reader σ) : Run (Reader σ) := do
  let (stop, points) ← passNumeral source reader.position 0
  let literal ← slice source.chars reader.position stop
  if 1 < points ∨ ¬ (Numeral.read (String.ofList literal)).isOk then
    throw (.fault (.malformedNumber (String.ofList literal) reader.position))
  else
    return { reader with
      position := stop
      tokens := reader.tokens ++ [⟨.number, String.ofList literal, reader.position⟩] }

/-- The first known name among those that end with one of the characters. -/
def findName (source : Source σ) (window : List Char) :
    List (Nat × Char) → σ → Run (Option (List Char) × σ)
  | [], state => return (none, state)
  | (offset, c) :: rest, state => do
    let stop ← add source.arithmetic offset c.utf8Size
    let name ← sliceBytes window stop
    match source.supplier.isKnown state (String.ofList name) with
    | (true, state) => return (some name, state)
    | (false, state) => findName source window rest state

/-- Reads what is left of a word that ends at `stop`: the name of a function, or one variable after
the other. -/
def readNames (source : Source σ) (stop : Nat) (called : Bool) (reader : Reader σ) :
    Run (Reader σ) := do
  if reader.position < stop then
    if called then
      let name ← slice source.chars reader.position stop
      return { reader with
        position := stop
        tokens := reader.tokens ++ [⟨.functionName, String.ofList name, reader.position⟩] }
    else
      let bound ← add source.arithmetic reader.position source.supplier.longest.toNat
      let window ← slice source.chars reader.position (min stop bound)
      let (name?, state) ← findName source window (charOffsets 0 window).reverse reader.state
      match name? with
      | some name =>
        let position ← add source.arithmetic reader.position name.length
        source |>.readNames stop called
          { position
            tokens := reader.tokens ++ [⟨.variableName, String.ofList name, reader.position⟩]
            state }
      | none =>
        let word ← slice source.chars reader.position stop
        throw (.fault (.unrecognizedIdentifier (String.ofList word) reader.position))
  else return reader
  partial_fixpoint

/-- Where the word at a position ends. -/
def findStop (source : Source σ) (position : Nat) : Run Nat := do
  let ahead ← slice source.chars position source.chars.length
  match ahead.findIdx? (! isAlphabetic ·) with
  | some offset => add source.arithmetic position offset
  | none => return source.chars.length

/-- Reads a word. -/
def readWord (source : Source σ) (reader : Reader σ) : Run (Reader σ) := do
  let stop ← findStop source reader.position
  if stop = reader.position then
    match source.chars[reader.position]? with
    | some c => throw (.fault (.unexpectedCharacter c reader.position))
    | none => throw (.breakdown (.index reader.position))
  else
    readNames source stop (source.chars[stop]? = some '(') reader

/-- Reads on to the end. -/
def readOn (source : Source σ) (reader : Reader σ) : Run (List Token) := do
  match source.chars[reader.position]? with
  | none => return reader.tokens ++ [Token.atEnd source.chars.length]
  | some c =>
    if isWhiteSpace c then
      let position ← add source.arithmetic reader.position 1
      source |>.readOn { reader with position }
    else
      match TokenKind.ofSymbol? c with
      | some kind =>
        let position ← add source.arithmetic reader.position 1
        source |>.readOn { reader with
          position
          tokens := reader.tokens ++ [⟨kind, String.singleton c, reader.position⟩] }
      | none =>
        let reader ← if c.isDigit then readLiteral source reader else readWord source reader
        source |>.readOn reader
  partial_fixpoint

end Source

/-- Reads a text. -/
def read (arithmetic : Arithmetic) (supplier : Supplier σ) (state : σ) (text : String) :
    Run (List Token) :=
  Source.readOn ⟨arithmetic, text.toList, supplier⟩ { position := 0, state }

end Reckoner.Buffer
