/-
  Reckoner.Main

  The console as a program.
-/
import Reckoner.Console

open Reckoner Console

/-- What the console prints while the given input is all it has read. -/
def printedSoFar (received : Input) : String :=
  String.join <| ((events (linesOf received)).takeWhile fun
    | .read none => false
    | _ => true).map Event.text

/-- Whether the console reads on after the given input. -/
def readsOn (received : Input) : Bool :=
  (events (linesOf received)).any fun
    | .read none => true
    | _ => false

/-- A failure of the device. -/
def failureOf (error : IO.Error) : ReadFailure where
  reason := String.ofList (error.toString.toList.filter (· ≠ '\n'))
  singleLine := by simp

/-- Receives the rest of a line, or what there is of it before the input ends or fails. -/
partial def receiveLine (input : IO.FS.Stream) : IO Input := do
  let item ← try
      let bytes ← input.read 1
      pure (bytes[0]?.map Except.ok)
    catch error => pure (some (.error (failureOf error)))
  match item with
  | none => return []
  | some item => if isWithinLine item then return item :: (← receiveLine input) else return [item]

/-- Prints what the input received so far gives, and receives another line while one is waited for.
The console is a function of its input, so each line only adds to what was printed before. -/
partial def serve (input : IO.FS.Stream) (printed : Nat) (received : Input) : IO Unit := do
  let soFar := printedSoFar received
  IO.print (soFar.drop printed).toString
  (← IO.getStdout).flush
  if readsOn received then
    let line ← receiveLine input
    if line.isEmpty then
      IO.print ((output received).drop soFar.length).toString
    else
      serve input soFar.length (received ++ line)

def main : IO Unit := do
  serve (← IO.getStdin) 0 []
