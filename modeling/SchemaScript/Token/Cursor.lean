import SchemaScript.Token.Lexeme

namespace SchemaScript

/-- The unread part of a source text and the place where it starts. -/
structure Cursor where
  rest : List Char
  position : Position
deriving DecidableEq

namespace Cursor

/-- A cursor at the start of a text. -/
def ofText (source : String) : Cursor := ⟨source.toList, .start⟩

/-- The character `c`, followed by `rest`, separates tokens: it is a blank, or
an attribute marker with a blank after it. -/
def isGap (c : Char) (rest : List Char) : Bool :=
  isBlank c || (c == '@' && rest.head?.any isBlank)

/-- The first place at or after `p` that is not in a gap. -/
def afterGap (p : Position) : List Char → Cursor
  | [] => ⟨[], p⟩
  | c :: cs => if isGap c cs then afterGap p.nextColumn cs else ⟨c :: cs, p⟩

/-- The cursor past the gap that it stands in front of. -/
def skipGap (self : Cursor) : Cursor := afterGap self.position self.rest

/-- Reads the token at the very front of the unread text. -/
def cut : Cursor → Token × Cursor
  | ⟨[], p⟩ => (⟨.eof, "", p⟩, ⟨[], p⟩)
  | ⟨c :: cs, p⟩ =>
    (⟨(Lexeme.read c cs).kind, (Lexeme.read c cs).literal, p⟩,
      ⟨(Lexeme.read c cs).rest, p.after (Lexeme.read c cs).text⟩)

/-- Reads the next token. At the end of the source that is the end token, again
and again at the same place. -/
def next (self : Cursor) : Token × Cursor := self.skipGap.cut

/-- The next token, without moving past it. -/
def peek (self : Cursor) : Token := self.next.1

/-- Reads the next token, or none at the end of the source. -/
def next? (self : Cursor) : Option Token × Cursor :=
  let (token, rest) := self.next
  (if token.kind = .eof then none else some token, rest)

theorem afterGap_rest_length_le (p : Position) (cs : List Char) :
    (afterGap p cs).rest.length ≤ cs.length := by
  induction cs generalizing p with
  | nil => simp [afterGap]
  | cons c cs ih =>
    rw [afterGap]
    split
    · exact Nat.le_succ_of_le (ih p.nextColumn)
    · exact Nat.le_refl _

theorem cut_rest_length_lt (self : Cursor) (h : self.cut.1.kind ≠ .eof) :
    self.cut.2.rest.length < self.rest.length := by
  obtain ⟨rest, p⟩ := self
  cases rest with
  | nil => exact absurd rfl h
  | cons c cs => exact Lexeme.read_rest_length_lt c cs

/-- Every token but the end token takes some of the unread text. -/
theorem next_rest_length_lt (self : Cursor) (h : self.next.1.kind ≠ .eof) :
    self.next.2.rest.length < self.rest.length :=
  Nat.lt_of_lt_of_le (self.skipGap.cut_rest_length_lt h)
    (afterGap_rest_length_le self.position self.rest)

end Cursor

end SchemaScript
