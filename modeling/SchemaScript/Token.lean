import SchemaScript.Position

namespace SchemaScript

/-- What a token is, apart from its text. -/
inductive Token.Kind where
  | eof
  | eol
  | tableWord
  | endWord
  | setWord
  | leftParen
  | rightParen
  | comma
  | attributeName
  | identifier
  | string
  | raw
  | number
  | illegal
deriving DecidableEq

/-- A unit of the source text. The literal is the text without the marker of an
attribute and without the quotes of a quoted text; it is empty at a line
end and at the end of the source. -/
structure Token where
  kind : Token.Kind
  literal : String
  position : Position
deriving DecidableEq

namespace Token

/-- A word is a keyword or else an identifier. -/
def Kind.ofWord (word : String) : Kind :=
  if word = "table" then .tableWord
  else if word = "end" then .endWord
  else if word = "set" then .setWord
  else .identifier

/-- The token of a word. -/
def word (literal : String) (position : Position) : Token :=
  ⟨.ofWord literal, literal, position⟩

/-- The token as it is shown in messages. -/
def text (t : Token) : String :=
  match t.kind with
  | .eof => "EOF"
  | .eol => "EOL"
  | .attributeName => "@" ++ t.literal
  | .string => "\"" ++ t.literal ++ "\""
  | .raw => "`" ++ t.literal ++ "`"
  | _ => t.literal

end Token

end SchemaScript
