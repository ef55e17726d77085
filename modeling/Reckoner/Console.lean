/-
  Reckoner.Console

  The dialogue with a user at a console.

  The user types expressions, a line each, and is asked for the variables and functions they
  leave open. A line may also fail to be read. A dialogue is recorded as a list of events: what is
  prompted for, what is read, and what is shown. What the console prints is the text of the events
  (`Console.output`).
-/
import Reckoner.Evaluation.Lemmas
import Reckoner.Evaluator

namespace Reckoner.Console

/-! ## Input -/

/-- Why a line cannot be read although the input has not ended. -/
structure ReadFailure where
  reason : String
  /-- The reason is shown on a line. -/
  singleLine : '\n' ∉ reason.toList
  deriving DecidableEq, Repr

/-- The bytes of the line are no text. -/
def ReadFailure.notText : ReadFailure where
  reason := "stream did not contain valid UTF-8"
  singleLine := by decide

/-- What a device gives until its input ends: bytes, and failures in between. -/
abbrev Input := List (Except ReadFailure UInt8)

/-- An input without failures. -/
def Input.ofBytes (bytes : List UInt8) : Input :=
  bytes.map .ok

/-- A text as an input. -/
def Input.ofText (text : String) : Input :=
  .ofBytes text.toUTF8.data.toList

/-- What comes of reading a line. -/
abbrev Reading := Except ReadFailure String

/-- The text of the bytes of a line. -/
def decodeLine (bytes : List UInt8) : Reading :=
  match String.fromUTF8? bytes.toByteArray with
  | some line => .ok line
  | none => .error .notText

/-- The byte that ends a line. -/
def lineFeed : UInt8 := 10

/-- The input goes on with the same line. -/
def isWithinLine : Except ReadFailure UInt8 → Bool
  | .ok byte => byte != lineFeed
  | .error _ => false

/-- The lines of an input, or why they cannot be read. A line feed ends a line; after the last one
there is another line only if it is not empty. A failure comes in the place of its line, of which
nothing is kept. -/
def linesOf (input : Input) : List Reading :=
  (go input).map fun line => line.bind decodeLine
where
  /-- The bytes of the lines. -/
  go : Input → List (Except ReadFailure (List UInt8))
    | [] => []
    | .error failure :: rest => .error failure :: go rest
    | .ok byte :: rest =>
      if byte = lineFeed then .ok [] :: go rest
      else
        match go rest with
        | [] => [.ok [byte]]
        | line :: lines => line.map (byte :: ·) :: lines

/-! ## Events -/

/-- What the user is prompted for. -/
inductive Prompt
  | expression
  /-- The value of a variable. -/
  | value (name : String)
  /-- The name of a function's argument. -/
  | placeholder (name : String)
  /-- A function's body, once its argument has a name. -/
  | body (name : String) (placeholder : String)
  deriving DecidableEq, Repr

/-- The text of a prompt. The answer is typed right after it. -/
def Prompt.text : Prompt → String
  | .expression => "> "
  | .value name => "Enter the value of your variable " ++ name ++ ": "
  | .placeholder name => "Argument name of function " ++ name ++ ": "
  | .body name argument => "Body of " ++ name ++ "(" ++ argument ++ "): "

/-- What happens at the console. -/
inductive Event
  | prompted (prompt : Prompt)
  /-- A line is read or cannot be read, or there is none because the input has ended. -/
  | read (reading : Option Reading)
  /-- The result of an evaluation is shown. -/
  | shown (result : Except EvalError Float)

/-- What an event adds to the output. -/
def Event.text : Event → String
  | .prompted prompt => prompt.text
  | .read _ => ""
  | .shown (.ok value) => Numeral.ofFloat value ++ "\n"
  | .shown (.error error) => "Error: " ++ error.message ++ "\n"

/-! ## The user as a resolver -/

/-- Why the user gives no answer when the input has ended. -/
def inputClosed : String := "input closed"

/-- The answer in what is read: the line without the white space at its ends. If there is no line,
the error says why. -/
def answerOf : Option Reading → Except String String
  | none => .error inputClosed
  | some (.error failure) => .error failure.reason
  | some (.ok line) => .ok (Unicode.trim line)

/-- The lines not yet read, and what has happened so far. -/
structure Dialogue where
  unread : List Reading
  events : List Event := []

namespace Dialogue

/-- Prompts and reads the answer. -/
def ask (dialogue : Dialogue) (prompt : Prompt) : Except String String × Dialogue :=
  let reading := dialogue.unread.head?
  (answerOf reading,
    { unread := dialogue.unread.tail
      events := dialogue.events ++ [.prompted prompt, .read reading] })

/-- Shows the result of an evaluation. -/
def tell (dialogue : Dialogue) (result : Except EvalError Float) : Dialogue :=
  { dialogue with events := dialogue.events ++ [.shown result] }

end Dialogue

instance : Resolver Dialogue where
  value dialogue name :=
    match dialogue.ask (.value name) with
    | (.error reason, dialogue) => (.error reason, dialogue)
    | (.ok line, dialogue) =>
      (match Numeral.read line with
        | .ok value => .ok value
        | .error error => .error ("'" ++ line ++ "' is not a number: " ++ error.message), dialogue)
  function dialogue name :=
    match dialogue.ask (.placeholder name) with
    | (.error reason, dialogue) => (.error reason, dialogue)
    | (.ok placeholder, dialogue) =>
      match dialogue.ask (.body name placeholder) with
      | (.error reason, dialogue) => (.error reason, dialogue)
      | (.ok body, dialogue) => (.ok { placeholder, body }, dialogue)

/-! ## The input only gets shorter -/

theorem length_unread_ask (dialogue : Dialogue) (prompt : Prompt) :
    (dialogue.ask prompt).2.unread.length ≤ dialogue.unread.length := by
  rw [Dialogue.ask, List.length_tail]
  exact Nat.sub_le _ _

theorem length_unread_ask_lt {dialogue : Dialogue} {prompt : Prompt} {line : String}
    {after : Dialogue} (h : dialogue.ask prompt = (.ok line, after)) :
    after.unread.length < dialogue.unread.length := by
  obtain ⟨_ | ⟨reading, unread⟩, events⟩ := dialogue
  · -- There is no answer at the end of the input.
    cases h
  · obtain ⟨-, rfl⟩ := Prod.mk.inj h
    exact Nat.lt_succ_self _

theorem length_unread_value (dialogue : Dialogue) (name : String) :
    (Resolver.value dialogue name).2.unread.length ≤ dialogue.unread.length := by
  have shorter := length_unread_ask dialogue (.value name)
  simp only [Resolver.value]
  split <;> simp_all

theorem length_unread_function (dialogue : Dialogue) (name : String) :
    (Resolver.function dialogue name).2.unread.length ≤ dialogue.unread.length := by
  have shorter := length_unread_ask dialogue (.placeholder name)
  simp only [Resolver.function]
  split
  · simp_all
  · next placeholder after eq =>
    have shorter' := length_unread_ask after (.body name placeholder)
    rw [eq] at shorter
    split <;> simp_all <;> omega

/-- The later state has no more lines to read. -/
def NoMoreUnread (before after : EvalState Dialogue) : Prop :=
  after.resolver.unread.length ≤ before.resolver.unread.length

theorem stable_noMoreUnread : Evaluation.Stable NoMoreUnread where
  refl := fun state => Nat.le_refl state.resolver.unread.length
  trans := fun _ _ _ first second => Nat.le_trans second first
  resolve := by
    intro name state
    unfold NoMoreUnread
    rcases Evaluation.resolver_resolve name state with eq | eq
    · exact Nat.le_of_eq (congrArg (fun resolver => resolver.unread.length) eq)
    · rw [eq]
      exact length_unread_value _ _
  askFunction := fun name state => length_unread_function state.resolver name

/-- An evaluation reads lines and puts none back. -/
theorem keeps_noMoreUnread (text : String) :
    Evaluation.Keeps NoMoreUnread (Evaluation.evaluateText text) :=
  stable_noMoreUnread.evaluateText text

/-! ## The loop -/

/-- The words that end the dialogue. -/
def isFarewell (line : String) : Bool :=
  line = "quit" || line = "exit"

/-- Reads and evaluates expressions until a farewell is read or no line can be read. -/
def converse (evaluator : Evaluator Dialogue) : Dialogue :=
  match _h : evaluator.resolver.ask .expression with
  | (.error _, dialogue) => dialogue
  | (.ok line, dialogue) =>
    if isFarewell line then dialogue
    else
      let outcome := (Evaluator.setExpression { evaluator with resolver := dialogue } line).evaluate
      converse
        { outcome.evaluator with resolver := outcome.evaluator.resolver.tell outcome.result }
  termination_by evaluator.resolver.unread.length
  decreasing_by
    exact Nat.lt_of_le_of_lt (keeps_noMoreUnread line _) (length_unread_ask_lt _h)

/-- What happens when the given lines are read, or fail to be. -/
def events (readings : List Reading) : List Event :=
  (converse { resolver := { unread := readings } }).events

/-- All that the console prints on the given input. Printing itself does not fail. -/
def output (input : Input) : String :=
  String.join ((events (linesOf input)).map Event.text)

end Reckoner.Console
