import Mathlib
import SchemaScript.Proofs.Generation
import SchemaScript.Proofs.Precedence

namespace SchemaScript

/-- Reads a literal from behind its opening quote. A doubled quote stands for one
quote, and any other quote closes the literal. Gives what the literal holds and
the text after it, or no such text when the literal is never closed. -/
def readLiteral : List Char → List Char × Option (List Char)
  | [] => ([], none)
  | '\x27' :: '\x27' :: cs => ('\x27' :: (readLiteral cs).1, (readLiteral cs).2)
  | '\x27' :: cs => ([], some cs)
  | c :: cs => (c :: (readLiteral cs).1, (readLiteral cs).2)

/-- An SQL text as a reader sees it who knows about quotes: the texts before, between
and after the literals, and what the literals hold. -/
structure Reading where
  outside : List (List Char)
  literals : List (List Char)
  closed : Bool
deriving DecidableEq

namespace Reading

/-- The reading of an empty text. -/
def empty : Reading := ⟨[[]], [], true⟩

/-- The reading of a text that has `text` in front of its first literal. -/
def addText (text : List Char) (self : Reading) : Reading :=
  { self with outside := self.outside.modifyHead (text ++ ·) }

/-- The reading of a text that has a literal in front. -/
def addLiteral (content : List Char) (self : Reading) : Reading :=
  ⟨[] :: self.outside, content :: self.literals, self.closed⟩

end Reading

theorem readLiteral_rest_length_le {cs rest : List Char} (h : (readLiteral cs).2 = some rest) :
    rest.length ≤ cs.length := by
  fun_induction readLiteral cs with
  | case1 => cases h
  | case2 cs ih =>
    have hle := ih h
    simp only [List.length_cons]
    omega
  | case3 cs _ =>
    cases h
    simp
  | case4 c cs _ _ ih =>
    have hle := ih h
    simp only [List.length_cons]
    omega

/-- Reads an SQL text with its literals. -/
def scan (text : List Char) : Reading :=
  match text with
  | [] => .empty
  | c :: cs =>
    if c = '\x27' then
      match _ : (readLiteral cs).2 with
      | some rest => (scan rest).addLiteral (readLiteral cs).1
      | none => ⟨[[]], [(readLiteral cs).1], false⟩
    else (scan cs).addText [c]
termination_by text.length
decreasing_by
  · exact Nat.lt_succ_of_le (readLiteral_rest_length_le ‹_›)
  · simp

/-- The written form of a literal is read back as it is, where no quote follows. -/
theorem readLiteral_quoted (text : List Char) {rest : List Char} (h : rest.head? ≠ some '\x27') :
    readLiteral (text.flatMap (fun c => if c = '\x27' then [c, c] else [c]) ++ '\x27' :: rest) =
      (text, some rest) := by
  induction text with
  | nil =>
    cases rest with
    | nil => rfl
    | cons d ds =>
      have hd : d ≠ '\x27' := by simpa using h
      simp [readLiteral, hd]
  | cons c text ih =>
    by_cases hc : c = '\x27'
    · simp [readLiteral, hc, ih]
    · simp [readLiteral, hc, ih]

theorem scan_quoteLiteral (value : String) {rest : List Char} (h : rest.head? ≠ some '\x27') :
    scan ((quoteLiteral value).toList ++ rest) = (scan rest).addLiteral value.toList := by
  have hread := readLiteral_quoted value.toList h
  have htext : (quoteLiteral value).toList ++ rest = '\x27' :: (value.toList.flatMap
      (fun c => if c = '\x27' then [c, c] else [c]) ++ '\x27' :: rest) := by
    simp [quoteLiteral]
  rw [htext, scan, if_pos rfl]
  split
  next found hfound =>
    rw [hread] at hfound ⊢
    cases hfound
    rfl
  next hfound =>
    rw [hread] at hfound
    cases hfound

theorem scan_append {text : List Char} (h : '\x27' ∉ text) (rest : List Char) :
    scan (text ++ rest) = (scan rest).addText text := by
  induction text with
  | nil => cases hscan : scan rest with
    | mk outside literals closed => cases outside <;> simp [hscan, Reading.addText]
  | cons c text ih =>
    obtain ⟨hc, htext⟩ := List.ne_and_not_mem_of_not_mem_cons h
    rw [List.cons_append, scan, if_neg (Ne.symm hc), ih htext]
    cases hscan : scan rest with
    | mk outside literals closed => cases outside <;> simp [Reading.addText]

/-- A part of an SQL text: a text outside of literals, or a literal. -/
inductive SqlPart where
  | plain (text : String)
  | literal (value : String)
deriving DecidableEq

namespace SqlPart

/-- The characters of a part. -/
def text : SqlPart → List Char
  | .plain text => text.toList
  | .literal value => (quoteLiteral value).toList

/-- What a reader is to see of a text that is made of the parts. -/
def reading : List SqlPart → Reading
  | [] => .empty
  | .plain text :: rest => (reading rest).addText text.toList
  | .literal value :: rest => (reading rest).addLiteral value.toList

/-- The value of a literal. -/
def value? : SqlPart → Option String
  | .plain _ => none
  | .literal value => some value

/-- The part without what its literal holds. -/
def blank : SqlPart → SqlPart
  | .plain text => .plain text
  | .literal _ => .literal ""

/-- No text has quotes of its own, and every literal is followed by some text. -/
def Tidy : List SqlPart → Prop
  | [] => True
  | .plain text :: rest => '\x27' ∉ text.toList ∧ Tidy rest
  | .literal _ :: rest => (∃ text later, rest = .plain text :: later ∧ text ≠ "") ∧ Tidy rest

variable {parts later : List SqlPart}

theorem Tidy.append (h : Tidy parts) (hlater : Tidy later) : Tidy (parts ++ later) := by
  induction parts with
  | nil => exact hlater
  | cons part parts ih =>
    cases part with
    | plain text => exact ⟨h.1, ih h.2⟩
    | literal value =>
      obtain ⟨⟨text, rest, rfl, htext⟩, hrest⟩ := h
      exact ⟨⟨text, rest ++ later, rfl, htext⟩, ih hrest⟩

theorem Tidy.flatMap {α : Type} {list : List α} {f : α → List SqlPart}
    (h : ∀ x ∈ list, Tidy (f x)) : Tidy (list.flatMap f) := by
  induction list with
  | nil => exact trivial
  | cons x list ih =>
    rw [List.forall_mem_cons] at h
    exact h.1.append (ih h.2)

/-- The text after a literal does not begin with a quote. -/
theorem Tidy.head?_ne {value : String} (h : Tidy (.literal value :: parts)) :
    (parts.flatMap text).head? ≠ some '\x27' := by
  obtain ⟨⟨plain, rest, rfl, hne⟩, hfree, _⟩ := h
  obtain ⟨c, cs, hlist⟩ := List.exists_cons_of_ne_nil (by simpa using hne : plain.toList ≠ [])
  rw [hlist] at hfree
  simp only [List.flatMap_cons, text, hlist, List.cons_append, List.head?_cons, ne_eq,
    Option.some.injEq]
  exact Ne.symm (List.ne_of_not_mem_cons hfree)

/-- A tidy text is read as it was made. -/
theorem Tidy.scan_eq (h : Tidy parts) : scan (parts.flatMap text) = reading parts := by
  induction parts with
  | nil => rw [List.flatMap_nil, scan, reading]
  | cons part parts ih =>
    cases part with
    | plain plain => rw [List.flatMap_cons, text, scan_append h.1, ih h.2, reading]
    | literal value =>
      rw [List.flatMap_cons, text, scan_quoteLiteral value h.head?_ne, ih h.2, reading]

theorem reading_closed (parts : List SqlPart) : (reading parts).closed = true := by
  induction parts with
  | nil => rfl
  | cons part parts ih => cases part <;> exact ih

theorem reading_literals (parts : List SqlPart) :
    (reading parts).literals = (parts.filterMap value?).map String.toList := by
  induction parts with
  | nil => rfl
  | cons part parts ih =>
    cases part with
    | plain text => exact ih
    | literal value => exact congrArg (value.toList :: ·) ih

/-- What literals hold does not show outside of them. -/
theorem reading_outside_blank (parts : List SqlPart) :
    (reading (parts.map blank)).outside = (reading parts).outside := by
  induction parts with
  | nil => rfl
  | cons part parts ih =>
    cases part with
    | plain text => simp only [List.map_cons, blank, reading, Reading.addText, ih]
    | literal value => simp only [List.map_cons, blank, reading, Reading.addLiteral, ih]

end SqlPart

/-- A default as a part of an SQL text. -/
def Argument.part : Argument → SqlPart
  | .text value => .literal value
  | .raw value => .plain value

/-- The parts of a definition. -/
def ColumnDefinition.parts (self : ColumnDefinition) : List SqlPart :=
  .plain (self.name ++ " " ++ self.type ++
      (if self.primaryKey then " PRIMARY KEY UNIQUE" else "")) ::
    (self.defaultValue.elim [] fun value => [.plain " DEFAULT ", value.part]) ++
    [.plain ((if self.autoIncrement then " AUTO_INCREMENT" else "") ++
      (if self.nullable then " NULL" else " NOT NULL"))]

namespace CreateTable

/-- The parts of a statement. -/
def parts (self : CreateTable) : List SqlPart :=
  .plain ("CREATE TABLE " ++ self.name ++ " (\n") ::
    (self.columns.flatMap fun definition => .plain "\t" :: definition.parts ++ [.plain ",\n"]) ++
    (self.references.map fun reference => .plain ("\t" ++ reference.sql ++ ",\n")) ++
    [.plain ");"]

/-- The parts of a script. Together they are the generated text. -/
def scriptParts : List CreateTable → List SqlPart
  | [] => [.plain "\n"]
  | first :: rest => first.parts ++ .plain "\n" ::
      rest.flatMap fun statement => .plain "\n" :: statement.parts ++ [.plain "\n"]

end CreateTable

theorem Argument.sql_eq_part (self : Argument) : self.sql.toList = self.part.text := by
  cases self <;> rfl

theorem ColumnDefinition.sql_eq_parts (self : ColumnDefinition) :
    self.sql.toList = self.parts.flatMap SqlPart.text := by
  unfold ColumnDefinition.sql parts
  cases self.defaultValue with
  | none => simp [SqlPart.text]
  | some value => simp [SqlPart.text, value.sql_eq_part]

namespace CreateTable

theorem sql_eq_parts (self : CreateTable) :
    self.sql.toList = self.parts.flatMap SqlPart.text := by
  unfold sql parts
  simp [SqlPart.text, String.toList_join, List.flatMap_append, List.flatMap_assoc,
    ColumnDefinition.sql_eq_parts, List.flatMap_map]

/-- Each statement after the first has a blank line before it, and each one ends its
line. -/
theorem script_cons (first : CreateTable) (rest : List CreateTable) :
    script (first :: rest) =
      first.sql ++ "\n" ++
        String.join (rest.map fun statement => "\n" ++ statement.sql ++ "\n") := by
  induction rest generalizing first with
  | nil => simp [script, String.intercalate_singleton]
  | cons next rest ih =>
    have hsplit : script (first :: next :: rest) =
        first.sql ++ "\n\n" ++ script (next :: rest) := by
      simp [script, String.intercalate_cons_cons, String.append_assoc]
    rw [hsplit, ih next, List.map_cons, String.join_cons, show "\n\n" = "\n" ++ "\n" from rfl]
    simp only [String.append_assoc]

theorem script_eq_parts {statements : List CreateTable} :
    (script statements).toList = (scriptParts statements).flatMap SqlPart.text := by
  cases statements with
  | nil => rfl
  | cons first rest =>
    rw [script_cons]
    simp [scriptParts, SqlPart.text, sql_eq_parts, String.toList_join, List.flatMap_assoc,
      List.flatMap_map]

end CreateTable

end SchemaScript
