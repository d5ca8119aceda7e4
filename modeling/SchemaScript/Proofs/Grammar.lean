import Mathlib
import SchemaScript.Proofs.Attachment
import SchemaScript.Proofs.Precedence
import SchemaScript.Proofs.Reading

namespace SchemaScript

/-- An attribute clause as it is written. -/
structure ClauseTree where
  name : String
  arguments : List Argument

/-- What is written in the place of a type. -/
inductive TypeTree where
  | named (name : String)
  | raw (literal : String)

/-- A column line as it is written. -/
structure ColumnTree where
  name : String
  type : TypeTree
  clauses : List ClauseTree

/-- A table as it is written. Blank lines leave nothing in it. -/
structure TableTree where
  name : String
  columns : List ColumnTree

/-- A table or a setting of a source text. -/
inductive Item where
  | table (tree : TableTree)
  | setting (key value : String)

/-- `argument (',' argument)*`, where an argument is a string or a raw literal. -/
inductive ArgumentsRule : List Token → List Argument → Prop where
  | one {token : Token} {argument : Argument} (hargument : token.argument? = some argument) :
      ArgumentsRule [token] [argument]
  | more {tokens : List Token} {arguments : List Argument} {comma token : Token}
      {argument : Argument} (hfirst : ArgumentsRule tokens arguments)
      (hcomma : comma.kind = .comma) (hargument : token.argument? = some argument) :
      ArgumentsRule (tokens ++ [comma, token]) (arguments ++ [argument])

/-- `Attribute ['(' [arguments] ')']` -/
inductive ClauseRule : List Token → ClauseTree → Prop where
  | bare {name : Token} (hname : name.kind = .attributeName) : ClauseRule [name] ⟨name.literal, []⟩
  | empty {name left right : Token} (hname : name.kind = .attributeName)
      (hleft : left.kind = .leftParen) (hright : right.kind = .rightParen) :
      ClauseRule [name, left, right] ⟨name.literal, []⟩
  | filled {name left right : Token} {tokens : List Token} {arguments : List Argument}
      (hname : name.kind = .attributeName) (hleft : left.kind = .leftParen)
      (harguments : ArgumentsRule tokens arguments) (hright : right.kind = .rightParen) :
      ClauseRule (name :: left :: tokens ++ [right]) ⟨name.literal, arguments⟩

/-- `clause*` -/
inductive ClausesRule : List Token → List ClauseTree → Prop where
  | nil : ClausesRule [] []
  | clause {tokens last : List Token} {clauses : List ClauseTree} {tree : ClauseTree}
      (hclauses : ClausesRule tokens clauses) (hlast : ClauseRule last tree) :
      ClausesRule (tokens ++ last) (clauses ++ [tree])

/-- `Identifier | Raw` -/
inductive TypeRule : Token → TypeTree → Prop where
  | named {token : Token} (hkind : token.kind = .identifier) : TypeRule token (.named token.literal)
  | raw {token : Token} (hkind : token.kind = .raw) : TypeRule token (.raw token.literal)

/-- `Identifier type clause* Eol` -/
inductive ColumnRule : List Token → ColumnTree → Prop where
  | column {name type eol : Token} {tree : TypeTree} {tokens : List Token}
      {clauses : List ClauseTree} (hname : name.kind = .identifier) (htype : TypeRule type tree)
      (hclauses : ClausesRule tokens clauses) (heol : eol.kind = .eol) :
      ColumnRule (name :: type :: tokens ++ [eol]) ⟨name.literal, tree, clauses⟩

/-- `(Eol | column)*` -/
inductive BodyRule : List Token → List ColumnTree → Prop where
  | nil : BodyRule [] []
  | blank {tokens : List Token} {columns : List ColumnTree} {eol : Token}
      (hbody : BodyRule tokens columns) (heol : eol.kind = .eol) :
      BodyRule (tokens ++ [eol]) columns
  | column {tokens last : List Token} {columns : List ColumnTree} {tree : ColumnTree}
      (hbody : BodyRule tokens columns) (hlast : ColumnRule last tree) :
      BodyRule (tokens ++ last) (columns ++ [tree])

/-- `Table Identifier Eol (Eol | column)* End` -/
inductive TableRule : List Token → TableTree → Prop where
  | table {word name eol last : Token} {tokens : List Token} {columns : List ColumnTree}
      (hword : word.kind = .tableWord) (hname : name.kind = .identifier) (heol : eol.kind = .eol)
      (hbody : BodyRule tokens columns) (hlast : last.kind = .endWord) :
      TableRule (word :: name :: eol :: tokens ++ [last]) ⟨name.literal, columns⟩

/-- `Set Identifier (Identifier | String)`, which a line end or the end of the
source has to follow. -/
inductive SettingRule : List Token → String → String → Prop where
  | setting {word key value : Token} (hword : word.kind = .setWord)
      (hkey : key.kind = .identifier)
      (hvalue : value.kind = .identifier ∨ value.kind = .string) :
      SettingRule [word, key, value] key.literal value.literal

/-- `(Eol | table | setting Eol)*` -/
inductive LinesRule : List Token → List Item → Prop where
  | nil : LinesRule [] []
  | blank {tokens : List Token} {items : List Item} {eol : Token}
      (hlines : LinesRule tokens items) (heol : eol.kind = .eol) : LinesRule (tokens ++ [eol]) items
  | table {tokens last : List Token} {items : List Item} {tree : TableTree}
      (hlines : LinesRule tokens items) (hlast : TableRule last tree) :
      LinesRule (tokens ++ last) (items ++ [.table tree])
  | setting {tokens last : List Token} {items : List Item} {key value : String} {eol : Token}
      (hlines : LinesRule tokens items) (hlast : SettingRule last key value)
      (heol : eol.kind = .eol) :
      LinesRule (tokens ++ (last ++ [eol])) (items ++ [.setting key value])

/-- `(Eol | table | setting (Eol | end of input))*`: only the last setting can do
without a line end. -/
inductive SourceRule : List Token → List Item → Prop where
  | lines {tokens : List Token} {items : List Item} (hlines : LinesRule tokens items) :
      SourceRule tokens items
  | unended {tokens last : List Token} {items : List Item} {key value : String}
      (hlines : LinesRule tokens items) (hlast : SettingRule last key value) :
      SourceRule (tokens ++ last) (items ++ [.setting key value])

namespace Item

/-- The tables among some items. -/
def tables (items : List Item) : List TableTree :=
  items.filterMap fun
    | .table tree => some tree
    | .setting _ _ => none

/-- The settings among some items, as keys with their values. -/
def settings (items : List Item) : List (String × String) :=
  items.filterMap fun
    | .table _ => none
    | .setting key value => some (key, value)

theorem mem_tables {items : List Item} {tree : TableTree} :
    tree ∈ tables items ↔ .table tree ∈ items := by
  rw [tables, List.mem_filterMap]
  constructor
  · rintro ⟨item, hitem, htree⟩
    cases item with
    | table => cases htree; exact hitem
    | setting => cases htree
  · exact fun hitem => ⟨_, hitem, rfl⟩

end Item

namespace ClauseTree

/-- The clause has the arguments that its name asks for. A reference names one of
the `earlier` tables and one of its columns. -/
def Admissible (earlier : List TableTree) (self : ClauseTree) : Prop :=
  ∃ declared, Attribute.Declared self.name self.arguments declared ∧
    ∀ target key, declared = .reference target key →
      ∃ table ∈ earlier, table.name = target ∧ key ∈ table.columns.map ColumnTree.name

/-- An action stands after a reference of the same column. -/
def AfterReference (before : List ClauseTree) (self : ClauseTree) : Prop :=
  self.name = "onDelete" ∨ self.name = "onUpdate" → ∃ other ∈ before, other.name = "reference"

end ClauseTree

/-- The side conditions of a column line. -/
structure ColumnTree.Admissible (earlier : List TableTree) (column : ColumnTree) : Prop where
  clauses : ∀ clause ∈ column.clauses, clause.Admissible earlier
  distinct : (column.clauses.map ClauseTree.name).Nodup
  actions : EachAfter ClauseTree.AfterReference column.clauses

/-- The side conditions of a table. -/
structure TableTree.Admissible (earlier : List TableTree) (table : TableTree) : Prop where
  distinct : (table.columns.map ColumnTree.name).Nodup
  columns : ∀ column ∈ table.columns, column.Admissible earlier

/-- The side conditions of a source text. -/
structure Item.Admissible (items : List Item) : Prop where
  keys : ∀ setting ∈ settings items, setting.1 = "provider" ∨ setting.1 = "url"
  distinct : ((tables items).map TableTree.name).Nodup
  tables : EachAfter TableTree.Admissible (tables items)

theorem ColumnTree.Admissible.of_append {earlier : List TableTree} {name : String}
    {type : TypeTree} {clauses later : List ClauseTree}
    (h : Admissible earlier ⟨name, type, clauses ++ later⟩) :
    Admissible earlier ⟨name, type, clauses⟩ where
  clauses := fun clause hmem => h.clauses clause (List.mem_append_left _ hmem)
  distinct := by
    have hdistinct := h.distinct
    rw [List.map_append] at hdistinct
    exact hdistinct.of_append_left
  actions := h.actions.of_append

theorem TableTree.Admissible.of_append {earlier : List TableTree} {name : String}
    {columns later : List ColumnTree} (h : Admissible earlier ⟨name, columns ++ later⟩) :
    Admissible earlier ⟨name, columns⟩ where
  distinct := by
    have hdistinct := h.distinct
    rw [List.map_append] at hdistinct
    exact hdistinct.of_append_left
  columns := fun column hmem => h.columns column (List.mem_append_left _ hmem)

/-- What meets the side conditions meets them at every earlier point. -/
theorem Item.Admissible.of_append {items later : List Item} (h : Admissible (items ++ later)) :
    Admissible items := by
  obtain ⟨hkeys, hdistinct, htables⟩ := h
  simp only [Item.settings, Item.tables, List.filterMap_append, List.map_append] at *
  exact ⟨fun setting hmem => hkeys setting (List.mem_append_left _ hmem),
    hdistinct.of_append_left, htables.of_append⟩

end SchemaScript
