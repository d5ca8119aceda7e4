namespace SchemaScript

/-- A place in a source text. Lines and columns are counted from one, and
columns count characters. -/
structure Position where
  line : Nat
  column : Nat
deriving DecidableEq

namespace Position

/-- The place of the first character of a text. -/
def start : Position := ⟨1, 1⟩

/-- The place one character further on the line. -/
def nextColumn (p : Position) : Position := ⟨p.line, p.column + 1⟩

/-- The place of the first character of the next line. -/
def nextLine (p : Position) : Position := ⟨p.line + 1, 1⟩

/-- The character `c`, followed by `rest`, completes a line break: a line feed
always does, a carriage return only when no line feed follows it. -/
def endsLine (c : Char) (rest : List Char) : Bool :=
  c == '\n' || (c == '\r' && rest.head? != some '\n')

/-- The place reached from `p` by reading a text. A carriage return and the
line feed after it are one line break. -/
def after (p : Position) : List Char → Position
  | [] => p
  | c :: rest => if endsLine c rest then after p.nextLine rest else after p.nextColumn rest

end Position

end SchemaScript
