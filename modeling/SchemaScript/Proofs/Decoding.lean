import Mathlib
import SchemaScript.Proofs.ForeignKeys
import SchemaScript.Proofs.Quoting
import SchemaScript.Proofs.Writing

namespace SchemaScript

/-- Takes a value off the front of a text and leaves the rest of the text. -/
abbrev Reader := StateT (List Char) Option

namespace Reader

/-- Takes a text off that has to be there. -/
def expect (text : String) : Reader Unit := fun cs =>
  (text.toList.isPrefixOf? cs).map fun rest => ((), rest)

/-- Whether the text begins with `text`, which is then taken off. -/
def given (text : String) : Reader Bool := fun cs =>
  match text.toList.isPrefixOf? cs with
  | some rest => some (true, rest)
  | none => some (false, cs)

/-- Takes off the letters, digits and underscores in front. -/
def word : Reader String := fun cs =>
  some (String.ofList (cs.takeWhile continuesWord), cs.dropWhile continuesWord)

/-- Takes off a literal and gives what it holds. -/
def literal : Reader String := do
  expect "'"
  fun cs => (readLiteral cs).2.map fun rest => (String.ofList (readLiteral cs).1, rest)

/-- Takes off the name of an action. -/
def actionName : Reader String := fun cs =>
  Action.all.findSome? fun action =>
    (action.name.toList.isPrefixOf? cs).map fun rest => (action.name, rest)

/-- The text has been read to its end. -/
def atEnd (cs : List Char) : Option (List Char) := if cs = [] then some [] else none

/-- Reads items up to where the text can be stopped. An item that takes nothing off the
text is refused. -/
def many {α : Type} (stop : List Char → Option (List Char)) (item : Reader α)
    (cs : List Char) : Option (List α × List Char) :=
  match stop cs with
  | some rest => some ([], rest)
  | none =>
    match item cs with
    | none => none
    | some (value, later) =>
      if later.length < cs.length then
        (many stop item later).map fun (values, rest) => (value :: values, rest)
      else none
termination_by cs.length

/-- Reads the default of a definition, if it has one. -/
def defaultValue : Reader (Option Argument) := do
  if ← given " DEFAULT " then return some (.text (← literal)) else return none

/-- Reads whether a column can be null. -/
def nullability : Reader Bool := do
  if ← given " NULL" then return true
  expect " NOT NULL"
  return false

/-- Reads a definition from behind its name. -/
def definition (name : String) : Reader ColumnDefinition := do
  let type ← word
  let primaryKey ← given " PRIMARY KEY UNIQUE"
  let defaultValue ← defaultValue
  let autoIncrement ← given " AUTO_INCREMENT"
  let nullable ← nullability
  return { name, type, primaryKey, defaultValue, autoIncrement, nullable }

/-- Reads the action behind the words for its occasion, if there is one. -/
def action (lead : String) : Reader (Option String) := do
  if ← given lead then return some (← actionName) else return none

/-- Reads a reference from behind its opening parenthesis. -/
def reference : Reader Reference := do
  let source ← word
  expect ") REFERENCES "
  let table ← word
  expect "("
  let column ← word
  expect ")"
  let onDelete ← action " ON DELETE "
  let onUpdate ← action " ON UPDATE "
  return { source, table, column, onDelete, onUpdate }

/-- Reads a line of a statement. The first word of a reference could be the name of a
column, but the second one is no type. -/
def line : Reader (ColumnDefinition ⊕ Reference) := do
  expect "\t"
  let name ← word
  expect " "
  let found ← if ← given "KEY (" then Sum.inr <$> reference else Sum.inl <$> definition name
  expect ",\n"
  return found

/-- Reads a statement and the blank line before it. -/
def statement : Reader CreateTable := do
  expect "\nCREATE TABLE "
  let name ← word
  expect " (\n"
  let lines ← many ");".toList.isPrefixOf? line
  expect "\n"
  return ⟨name, lines.filterMap Sum.getLeft?, lines.filterMap Sum.getRight?⟩

end Reader

/-- Reads the statements of an SQL text back. A blank line before the first statement
makes it like the others. -/
def CreateTable.decode (sql : String) : Option (List CreateTable) :=
  (Reader.many Reader.atEnd Reader.statement ('\n' :: sql.toList)).map Prod.fst

namespace Reader

variable {α β : Type} {cs rest : List Char}

theorem run_bind_eq {first : Reader α} {next : α → Reader β} {value : α}
    (h : first.run cs = some (value, rest)) : (first >>= next).run cs = (next value).run rest := by
  simp [StateT.run_bind, h]

theorem run_map_eq {first : Reader α} {f : α → β} {value : α}
    (h : first.run cs = some (value, rest)) : (f <$> first).run cs = some (f value, rest) := by
  simp [StateT.run_map, h]

theorem run_expect (text : String) (rest : List Char) :
    (expect text).run (text.toList ++ rest) = some ((), rest) := by
  have hrest : text.toList.isPrefixOf? (text.toList ++ rest) = some rest :=
    List.isPrefixOf?_eq_some_iff_append_eq.mpr rfl
  simp only [StateT.run, expect, hrest, Option.map_some]

theorem run_given (text : String) (rest : List Char) :
    (given text).run (text.toList ++ rest) = some (true, rest) := by
  have hrest : text.toList.isPrefixOf? (text.toList ++ rest) = some rest :=
    List.isPrefixOf?_eq_some_iff_append_eq.mpr rfl
  simp only [StateT.run, given, hrest]

theorem run_given_of_ne {text : String} (h : ∀ later, text.toList ++ later ≠ cs) :
    (given text).run cs = some (false, cs) := by
  have hnone : text.toList.isPrefixOf? cs = none := by
    rw [Option.eq_none_iff_forall_ne_some]
    intro later hlater
    exact h later (List.isPrefixOf?_eq_some_iff_append_eq.mp hlater)
  simp only [StateT.run, given, hnone]

theorem run_word {name : String} (h : isWord name) (hrest : EndsWord rest) :
    word.run (name.toList ++ rest) = some (name, rest) := by
  obtain ⟨c, cs, hlist, hstart, hcontinue⟩ := exists_of_isWord h
  have hall : ∀ d ∈ name.toList, continuesWord d := by
    rw [hlist, List.forall_mem_cons]
    exact ⟨continuesWord_of_startsWord hstart, hcontinue⟩
  obtain ⟨htake, hdrop⟩ := takeWhile_dropWhile_append hall hrest
  simp only [StateT.run, word, htake, hdrop, String.ofList_toList]

/-- A word is read up to the text that stands after it. -/
theorem run_word_before {name : String} (h : isWord name) (text : String) {c : Char}
    {more : List Char} (htext : text.toList = c :: more) (hc : continuesWord c = false) :
    word.run (name.toList ++ (text.toList ++ rest)) = some (name, text.toList ++ rest) := by
  rw [htext]
  exact run_word h (endsWord_cons hc)

theorem run_literal (value : String) (h : rest.head? ≠ some '\x27') :
    literal.run ((quoteLiteral value).toList ++ rest) = some (value, rest) := by
  have hread := readLiteral_quoted value.toList h
  have htext : (quoteLiteral value).toList ++ rest = "'".toList ++ (value.toList.flatMap
      (fun c => if c = '\x27' then [c, c] else [c]) ++ '\x27' :: rest) := by
    simp [quoteLiteral]
  rw [literal, htext, run_bind_eq (run_expect ..)]
  simp [StateT.run, hread]

/-- No known action begins with another one. -/
theorem run_actionName {name : String} (h : name ∈ Action.all.map Action.name)
    (rest : List Char) : actionName.run (name.toList ++ rest) = some (name, rest) := by
  obtain ⟨action, _, rfl⟩ := List.mem_map.mp h
  cases action <;> rfl

/-- Texts that are items one by one are read up to the end of the last one. -/
theorem many_flatMap {stop : List Char → Option (List Char)} {item : Reader α}
    {text : α → List Char} {values : List α} {final rest : List Char}
    (hitem : ∀ value ∈ values, ∀ later, stop (text value ++ later) = none ∧
      text value ≠ [] ∧ item.run (text value ++ later) = some (value, later))
    (hstop : stop final = some rest) :
    many stop item (values.flatMap text ++ final) = some (values, rest) := by
  induction values with
  | nil =>
    rw [many]
    simp [hstop]
  | cons value values ih =>
    rw [List.forall_mem_cons] at hitem
    obtain ⟨hgoes, hne, hread⟩ := hitem.1 (values.flatMap text ++ final)
    rw [StateT.run] at hread
    have hlength : 0 < (text value).length := List.length_pos_iff.mpr hne
    rw [List.flatMap_cons, List.append_assoc, many]
    simp [hgoes, hread, ih hitem.2, hlength]

/-- An optional clause is read back where the text after it begins with no other clause of
its kind. -/
theorem run_flag {text : String} {present : Bool}
    (h : present = false → ∀ later, text.toList ++ later ≠ rest) :
    (given text).run ((if present then text else "").toList ++ rest) = some (present, rest) := by
  cases present with
  | true => exact run_given text rest
  | false => exact run_given_of_ne (h rfl)

theorem run_defaultValue {value : Option Argument}
    (hvalue : ∀ given, value = some given → ∃ text, given = .text text)
    (hrest : ∀ later, " DEFAULT ".toList ++ later ≠ rest) (hquote : rest.head? ≠ some '\x27') :
    defaultValue.run ((value.elim "" fun value => " DEFAULT " ++ value.sql).toList ++ rest) =
      some (value, rest) := by
  unfold defaultValue
  cases value with
  | none =>
    rw [Option.elim_none, String.toList_empty, List.nil_append, run_bind_eq (run_given_of_ne hrest)]
    rfl
  | some given =>
    obtain ⟨text, rfl⟩ := hvalue given rfl
    rw [Option.elim_some, String.toList_append, List.append_assoc, run_bind_eq (run_given ..),
      if_pos rfl, Argument.sql, run_bind_eq (run_literal text hquote)]
    rfl

theorem run_nullability (nullable : Bool) (rest : List Char) :
    nullability.run ((if nullable then " NULL" else " NOT NULL").toList ++ rest) =
      some (nullable, rest) := by
  unfold nullability
  cases nullable with
  | true => rw [if_pos rfl, run_bind_eq (run_given ..)]; rfl
  | false =>
    have hne : ∀ later, " NULL".toList ++ later ≠ " NOT NULL".toList ++ rest := by simp
    rw [if_neg Bool.false_ne_true, run_bind_eq (run_given_of_ne hne), if_neg Bool.false_ne_true]
    rw [run_bind_eq (run_expect ..)]
    rfl

theorem run_action {lead : String} {value : Option String}
    (hvalue : ∀ name, value = some name → name ∈ Action.all.map Action.name)
    (hrest : ∀ later, lead.toList ++ later ≠ rest) :
    (action lead).run ((value.elim "" fun name => lead ++ name).toList ++ rest) =
      some (value, rest) := by
  unfold action
  cases value with
  | none =>
    rw [Option.elim_none, String.toList_empty, List.nil_append, run_bind_eq (run_given_of_ne hrest)]
    rfl
  | some name =>
    rw [Option.elim_some, String.toList_append, List.append_assoc, run_bind_eq (run_given ..),
      if_pos rfl, run_bind_eq (run_actionName (hvalue name rfl) rest)]
    rfl

end Reader

/-- A definition that can be told apart from a reference, and whose default is a text. -/
structure ColumnDefinition.Readable (definition : ColumnDefinition) : Prop where
  name : isWord definition.name
  type : definition.type ∈ Dialect.sqlite.types.map Prod.snd
  defaultValue : ∀ given, definition.defaultValue = some given → ∃ text, given = .text text

/-- A statement that can be read back. -/
structure CreateTable.Readable (statement : CreateTable) : Prop where
  name : isWord statement.name
  columns : ∀ definition ∈ statement.columns, definition.Readable
  references : ∀ reference ∈ statement.references, reference.Named

/-- A definition goes on with a clause that begins with one of the letters. -/
def GoesOn (letters : List Char) (cs : List Char) : Prop :=
  ∃ letter ∈ letters, ∃ later, cs = ' ' :: letter :: later

namespace GoesOn

variable {letters cs : List Char}

theorem endsWord (h : GoesOn letters cs) : EndsWord cs := by
  obtain ⟨_, _, later, rfl⟩ := h
  exact endsWord_cons rfl

theorem head?_ne (h : GoesOn letters cs) : cs.head? ≠ some '\x27' := by
  obtain ⟨_, _, later, rfl⟩ := h
  simp

theorem append_ne (h : GoesOn letters cs) {text : String} {letter : Char} {more : List Char}
    (htext : text.toList = ' ' :: letter :: more) (hletter : letter ∉ letters) (later : List Char) :
    text.toList ++ later ≠ cs := by
  obtain ⟨other, hother, _, rfl⟩ := h
  rw [htext]
  intro heq
  cases heq
  exact hletter hother

theorem nullability (nullable : Bool) (rest : List Char) :
    GoesOn ['N'] ((if nullable then " NULL" else " NOT NULL").toList ++ rest) := by
  cases nullable <;> exact ⟨'N', List.mem_cons_self, _, rfl⟩

/-- A clause that may be missing adds its letter. -/
theorem optional (h : GoesOn letters cs) (letter : Char) (text : String)
    (htext : text.toList = [] ∨ ∃ more, text.toList = ' ' :: letter :: more) :
    GoesOn (letter :: letters) (text.toList ++ cs) := by
  rcases htext with hnil | ⟨more, hmore⟩
  · obtain ⟨other, hother, later, rfl⟩ := h
    exact ⟨other, List.mem_cons_of_mem _ hother, later, by rw [hnil, List.nil_append]⟩
  · exact ⟨letter, List.mem_cons_self, more ++ cs, by rw [hmore]; rfl⟩

end GoesOn

namespace Reader

theorem run_definition {self : ColumnDefinition} (h : self.Readable) (rest : List Char) :
    (definition self.name).run (self.type.toList ++
        ((if self.primaryKey then " PRIMARY KEY UNIQUE" else "").toList ++
        ((self.defaultValue.elim "" fun value => " DEFAULT " ++ value.sql).toList ++
        ((if self.autoIncrement then " AUTO_INCREMENT" else "").toList ++
        ((if self.nullable then " NULL" else " NOT NULL").toList ++ rest))))) =
      some (self, rest) := by
  have htypes : ∀ type ∈ Dialect.sqlite.types.map Prod.snd, isWord type := by decide
  have hnull := GoesOn.nullability self.nullable rest
  have hauto := hnull.optional 'A' (if self.autoIncrement then " AUTO_INCREMENT" else "")
    (by split <;> simp)
  have hdefault := hauto.optional 'D'
    (self.defaultValue.elim "" fun value => " DEFAULT " ++ value.sql)
    (by cases self.defaultValue <;> simp)
  have hkey := hdefault.optional 'P' (if self.primaryKey then " PRIMARY KEY UNIQUE" else "")
    (by split <;> simp)
  unfold definition
  rw [run_bind_eq (run_word (htypes _ h.type) hkey.endsWord),
    run_bind_eq (run_flag fun _ => hdefault.append_ne rfl (by decide)),
    run_bind_eq (run_defaultValue h.defaultValue (hauto.append_ne rfl (by decide)) hauto.head?_ne),
    run_bind_eq (run_flag fun _ => hnull.append_ne rfl (by decide)),
    run_bind_eq (run_nullability ..)]
  rfl

/-- The text of a reference from behind its first parenthesis. -/
def referenceText (self : Reference) : List Char :=
  self.source.toList ++ (") REFERENCES ".toList ++ (self.table.toList ++ ("(".toList ++
    (self.column.toList ++ (")".toList ++
    ((self.onDelete.elim "" fun action => " ON DELETE " ++ action).toList ++
    (self.onUpdate.elim "" fun action => " ON UPDATE " ++ action).toList))))))

theorem run_reference {self : Reference} (h : self.Named) (rest : List Char) :
    reference.run (referenceText self ++ (",\n".toList ++ rest)) =
      some (self, ",\n".toList ++ rest) := by
  have hdeletes : ∀ name, self.onDelete = some name → name ∈ Action.all.map Action.name :=
    h.actions .delete
  have hupdates : ∀ name, self.onUpdate = some name → name ∈ Action.all.map Action.name :=
    h.actions .update
  have hupdate : ∀ later, " ON UPDATE ".toList ++ later ≠ ",\n".toList ++ rest := by simp
  have hdelete : ∀ later, " ON DELETE ".toList ++ later ≠
      (self.onUpdate.elim "" fun action => " ON UPDATE " ++ action).toList ++
        (",\n".toList ++ rest) := by
    cases self.onUpdate <;> simp
  unfold reference
  simp only [referenceText, List.append_assoc]
  rw [run_bind_eq (run_word_before (isWord_of_isName h.source) ") REFERENCES " rfl rfl),
    run_bind_eq (run_expect ..),
    run_bind_eq (run_word_before (isWord_of_isName h.table) "(" rfl rfl),
    run_bind_eq (run_expect ..),
    run_bind_eq (run_word_before (isWord_of_isName h.column) ")" rfl rfl),
    run_bind_eq (run_expect ..), run_bind_eq (run_action hdeletes hdelete),
    run_bind_eq (run_action hupdates hupdate)]
  rfl

/-- The text of a line, with its tab and its comma. -/
def lineText : ColumnDefinition ⊕ Reference → List Char
  | .inl definition => ("\t" ++ definition.sql ++ ",\n").toList
  | .inr reference => ("\t" ++ reference.sql ++ ",\n").toList

theorem run_line_of_definition {self : ColumnDefinition} (h : self.Readable) (rest : List Char) :
    line.run (("\t" ++ self.sql ++ ",\n").toList ++ rest) = some (.inl self, rest) := by
  have htypes : ∀ type ∈ Dialect.sqlite.types.map Prod.snd,
      isWord type ∧ type.toList.head? ≠ some 'K' := by
    decide
  obtain ⟨htype, hletter⟩ := htypes _ h.type
  have hkey : ∀ more later, "KEY (".toList ++ later ≠ self.type.toList ++ more := by
    intro more later heq
    obtain ⟨c, cs, hlist, _⟩ := exists_of_isWord htype
    rw [hlist] at heq hletter
    have hhead := congrArg List.head? heq
    exact hletter (by simpa using hhead.symm)
  simp only [ColumnDefinition.sql, String.toList_append, List.append_assoc]
  unfold line
  rw [run_bind_eq (run_expect ..), run_bind_eq (run_word_before h.name " " rfl rfl),
    run_bind_eq (run_expect ..), run_bind_eq (run_given_of_ne (hkey _)),
    if_neg Bool.false_ne_true, run_bind_eq (run_map_eq (run_definition h _)),
    run_bind_eq (run_expect ..)]
  rfl

theorem run_line_of_reference {self : Reference} (h : self.Named) (rest : List Char) :
    line.run (("\t" ++ self.sql ++ ",\n").toList ++ rest) = some (.inr self, rest) := by
  have hforeign : isWord "FOREIGN" := by decide
  have htext : ("\t" ++ self.sql ++ ",\n").toList ++ rest = "\t".toList ++ ("FOREIGN".toList ++
      (" ".toList ++ ("KEY (".toList ++ (referenceText self ++ (",\n".toList ++ rest))))) := by
    unfold Reference.sql referenceText
    simp
  unfold line
  rw [htext, run_bind_eq (run_expect ..), run_bind_eq (run_word_before hforeign " " rfl rfl),
    run_bind_eq (run_expect ..), run_bind_eq (run_given ..), if_pos rfl,
    run_bind_eq (run_map_eq (run_reference h rest)), run_bind_eq (run_expect ..)]
  rfl

theorem run_statement {self : CreateTable} (h : self.Readable) (rest : List Char) :
    statement.run (("\n" ++ self.sql ++ "\n").toList ++ rest) = some (self, rest) := by
  have hlines : ∀ found ∈ self.columns.map Sum.inl ++ self.references.map Sum.inr, ∀ later,
      ");".toList.isPrefixOf? (lineText found ++ later) = none ∧ lineText found ≠ [] ∧
        line.run (lineText found ++ later) = some (found, later) := by
    intro found hfound later
    rcases List.mem_append.mp hfound with hmem | hmem
    · obtain ⟨definition, hdefinition, rfl⟩ := List.mem_map.mp hmem
      exact ⟨by simp [lineText, List.isPrefixOf?], by simp [lineText],
        run_line_of_definition (h.columns definition hdefinition) later⟩
    · obtain ⟨reference, hreference, rfl⟩ := List.mem_map.mp hmem
      exact ⟨by simp [lineText, List.isPrefixOf?], by simp [lineText],
        run_line_of_reference (h.references reference hreference) later⟩
  have htext : ("\n" ++ self.sql ++ "\n").toList ++ rest = "\nCREATE TABLE ".toList ++
      (self.name.toList ++ (" (\n".toList ++
      ((self.columns.map Sum.inl ++ self.references.map Sum.inr).flatMap lineText ++
      (");".toList ++ ("\n".toList ++ rest))))) := by
    unfold CreateTable.sql
    simp [String.toList_join, List.flatMap_map, lineText]
  have hstop : ");".toList.isPrefixOf? (");".toList ++ ("\n".toList ++ rest)) =
      some ("\n".toList ++ rest) :=
    List.isPrefixOf?_eq_some_iff_append_eq.mpr rfl
  have hmany : StateT.run (many ");".toList.isPrefixOf? line) _ = _ := many_flatMap hlines hstop
  unfold statement
  rw [htext, run_bind_eq (run_expect ..), run_bind_eq (run_word_before h.name " (\n" rfl rfl),
    run_bind_eq (run_expect ..), run_bind_eq hmany, run_bind_eq (run_expect ..), StateT.run_pure]
  simp [List.filterMap_map, Function.comp_def]

end Reader

namespace CreateTable

theorem decode_script {statements : List CreateTable} (hne : statements ≠ [])
    (h : ∀ statement ∈ statements, statement.Readable) :
    decode (script statements) = some statements := by
  have htext : '\n' :: (script statements).toList =
      statements.flatMap (fun statement => ("\n" ++ statement.sql ++ "\n").toList) ++ [] := by
    obtain ⟨first, rest, rfl⟩ := List.exists_cons_of_ne_nil hne
    rw [script_cons]
    simp [String.toList_join, List.flatMap_map]
  have hread : ∀ statement ∈ statements, ∀ later,
      Reader.atEnd (("\n" ++ statement.sql ++ "\n").toList ++ later) = none ∧
        ("\n" ++ statement.sql ++ "\n").toList ≠ [] ∧
        Reader.statement.run (("\n" ++ statement.sql ++ "\n").toList ++ later) =
          some (statement, later) := by
    intro statement hmem later
    exact ⟨by simp [Reader.atEnd], by simp, Reader.run_statement (h statement hmem) later⟩
  have hend : Reader.atEnd [] = some [] := rfl
  rw [decode, htext, Reader.many_flatMap hread hend]
  rfl

end CreateTable

end SchemaScript
