/-
  Reckoner.Token.Cursor

  A movable position in a list of tokens.
-/
import Reckoner.Token.Basic

namespace Reckoner

/-- A list of tokens and how many of them have been passed. -/
structure Cursor where
  tokens : List Token
  position : Nat := 0

namespace Cursor

/-- The token under the cursor, and the cursor after it. At the end there is none, and the
cursor stays. -/
def next (cursor : Cursor) : Option Token × Cursor :=
  match cursor.tokens[cursor.position]? with
  | some token => (some token, { cursor with position := cursor.position + 1 })
  | none => (none, cursor)

/-- The cursor one token back, and the token now under it. At the start there is none, and the
cursor stays. -/
def back (cursor : Cursor) : Option Token × Cursor :=
  match cursor.position with
  | 0 => (none, cursor)
  | position + 1 => (cursor.tokens[position]?, { cursor with position })

end Cursor

end Reckoner
