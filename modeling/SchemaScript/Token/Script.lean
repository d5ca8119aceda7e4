import SchemaScript.Token.Cursor

namespace SchemaScript

/-- A source text cut into tokens. The end token is kept apart, since it stands
at a place of its own but for no text. -/
structure Script where
  tokens : List Token
  eof : Token
deriving DecidableEq

namespace Script

/-- Reads all tokens from a cursor on, after those already `read`, the latest
of which comes first. -/
def collect (read : List Token) (cursor : Cursor) : Script :=
  if cursor.next.1.kind = .eof then ⟨read.reverse, cursor.next.1⟩
  else collect (cursor.next.1 :: read) cursor.next.2
termination_by cursor.rest.length
decreasing_by exact cursor.next_rest_length_lt ‹_›

/-- Cuts a source text into tokens. -/
def ofText (source : String) : Script := collect [] (.ofText source)

/-- All tokens, the end token last. -/
def toList (self : Script) : List Token := self.tokens ++ [self.eof]

end Script

end SchemaScript
