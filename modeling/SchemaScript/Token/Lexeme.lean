import SchemaScript.Token

namespace SchemaScript

/-- Blanks separate tokens on a line. Only spaces and tabs are blanks. -/
def isBlank (c : Char) : Bool := c == ' ' || c == '\t'

/-- Words start with an ASCII letter or an underscore. -/
def startsWord (c : Char) : Bool := c.isAlpha || c == '_'

/-- Words go on with ASCII letters, ASCII digits and underscores. -/
def continuesWord (c : Char) : Bool := c.isAlphanum || c == '_'

/-- The kinds of lexeme that a first character opens. -/
inductive Opening where
  | lineBreak
  | marker
  | quote (kind : Token.Kind)
  | word
  | digit
  | single (kind : Token.Kind)
deriving DecidableEq

/-- Every character opens a lexeme. One that opens no other is illegal. -/
def Opening.ofChar (c : Char) : Opening :=
  if c = '\n' ∨ c = '\r' then .lineBreak
  else if c = '@' then .marker
  else if c = '"' then .quote .string
  else if c = '\x60' then .quote .raw
  else if startsWord c then .word
  else if c.isDigit then .digit
  else if c = '(' then .single .leftParen
  else if c = ')' then .single .rightParen
  else if c = ',' then .single .comma
  else .single .illegal

/-- The front of a text, up to the end of its first token. `text` holds the
characters of the token and `rest` those after it. -/
structure Lexeme where
  kind : Token.Kind
  literal : String
  text : List Char
  rest : List Char

namespace Lexeme

/-- A lexeme of one character, which is its own literal. -/
def single (kind : Token.Kind) (c : Char) (cs : List Char) : Lexeme :=
  ⟨kind, String.singleton c, [c], cs⟩

/-- A carriage return takes the line feed after it along. -/
def lineBreak (c : Char) (cs : List Char) : Lexeme :=
  match c, cs with
  | '\r', '\n' :: rest => ⟨.eol, "", ['\r', '\n'], rest⟩
  | _, _ => ⟨.eol, "", [c], cs⟩

/-- A word runs as far as its characters do. -/
def word (c : Char) (cs : List Char) : Lexeme :=
  let text := c :: cs.takeWhile continuesWord
  ⟨.ofWord (String.ofList text), String.ofList text, text, cs.dropWhile continuesWord⟩

/-- A number runs as far as its digits do. -/
def number (c : Char) (cs : List Char) : Lexeme :=
  let text := c :: cs.takeWhile Char.isDigit
  ⟨.number, String.ofList text, text, cs.dropWhile Char.isDigit⟩

/-- An attribute is a marker and the word right after it. A marker without a
word is illegal. -/
def marked (c : Char) (cs : List Char) : Lexeme :=
  if cs.head?.any startsWord then
    let name := cs.takeWhile continuesWord
    ⟨.attributeName, String.ofList name, c :: name, cs.dropWhile continuesWord⟩
  else single .illegal c cs

/-- A quoted text runs to the next `quote`, or to the end of the source when
there is none. Line breaks inside belong to the literal. -/
def quoted (kind : Token.Kind) (quote : Char) (cs : List Char) : Lexeme :=
  let body := cs.takeWhile (· != quote)
  match cs.dropWhile (· != quote) with
  | [] => ⟨kind, String.ofList body, quote :: body, []⟩
  | _ :: rest => ⟨kind, String.ofList body, quote :: (body ++ [quote]), rest⟩

/-- The lexeme at the front of `c :: cs`. -/
def read (c : Char) (cs : List Char) : Lexeme :=
  match Opening.ofChar c with
  | .lineBreak => lineBreak c cs
  | .marker => marked c cs
  | .quote kind => quoted kind c cs
  | .word => word c cs
  | .digit => number c cs
  | .single kind => single kind c cs

theorem lineBreak_text_append_rest (c : Char) (cs : List Char) :
    (lineBreak c cs).text ++ (lineBreak c cs).rest = c :: cs := by
  unfold lineBreak
  split <;> simp

theorem word_text_append_rest (c : Char) (cs : List Char) :
    (word c cs).text ++ (word c cs).rest = c :: cs := by
  simp [word]

theorem number_text_append_rest (c : Char) (cs : List Char) :
    (number c cs).text ++ (number c cs).rest = c :: cs := by
  simp [number]

theorem marked_text_append_rest (c : Char) (cs : List Char) :
    (marked c cs).text ++ (marked c cs).rest = c :: cs := by
  unfold marked
  split <;> simp [single]

theorem quoted_text_append_rest (kind : Token.Kind) (quote : Char) (cs : List Char) :
    (quoted kind quote cs).text ++ (quoted kind quote cs).rest = quote :: cs := by
  have hsplit := List.takeWhile_append_dropWhile (p := (· != quote)) (l := cs)
  unfold quoted
  split
  next hrest => simpa [hrest] using hsplit
  next d rest hrest =>
    have hd : (d != quote) = false := by
      have h := List.head?_dropWhile_not (· != quote) cs
      simpa [hrest] using h
    have heq : d = quote := by simpa using hd
    simpa [hrest, heq] using hsplit

/-- Nothing of the source is lost by cutting off a lexeme. -/
theorem read_text_append_rest (c : Char) (cs : List Char) :
    (read c cs).text ++ (read c cs).rest = c :: cs := by
  unfold read
  split
  · exact lineBreak_text_append_rest c cs
  · exact marked_text_append_rest c cs
  · exact quoted_text_append_rest _ c cs
  · exact word_text_append_rest c cs
  · exact number_text_append_rest c cs
  · rfl

theorem read_text_ne_nil (c : Char) (cs : List Char) : (read c cs).text ≠ [] := by
  unfold read
  split
  · unfold lineBreak; split <;> simp
  · unfold marked; split <;> simp [single]
  · unfold quoted; split <;> simp
  · simp [word]
  · simp [number]
  · simp [single]

theorem read_rest_length_lt (c : Char) (cs : List Char) :
    (read c cs).rest.length < (c :: cs).length := by
  have hlength := congrArg List.length (read_text_append_rest c cs)
  have htext := List.length_pos_iff.mpr (read_text_ne_nil c cs)
  simp only [List.length_append] at hlength
  omega

end Lexeme

end SchemaScript
