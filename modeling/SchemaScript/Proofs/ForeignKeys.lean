import Mathlib
import SchemaScript.Compile
import SchemaScript.Proofs.Generation
import SchemaScript.Proofs.Invariant

namespace SchemaScript

theorem EachAfter.take {α : Type} {rule : List α → α → Prop} {list : List α} {element : α}
    {index : Nat} (h : EachAfter rule list) (hindex : list[index]? = some element) :
    rule (list.take index) element := by
  obtain ⟨hlt, rfl⟩ := List.getElem?_eq_some_iff.mp hindex
  exact h _ _ (list.drop (index + 1)) (by simp)

namespace Column

variable {self : Column} {reference : Reference}

theorem reference_mem_of_foreignKey? (h : self.foreignKey? = some reference) :
    .reference reference.table reference.column ∈ self.attributes := by
  obtain ⟨⟨table, column⟩, htarget, rfl⟩ := Option.map_eq_some_iff.mp h
  obtain ⟨attached, hmem, hsome⟩ := List.exists_of_findSome?_eq_some htarget
  cases attached with
  | reference table' column' => cases hsome; exact hmem
  | _ => cases hsome

private theorem action_mem_of_findSome? {attributes : List Attribute} {occasion : Occasion}
    {name : String} (h : attributes.findSome? (Attribute.actionOn? occasion) = some name) :
    .action occasion name ∈ attributes := by
  obtain ⟨attached, hmem, hsome⟩ := List.exists_of_findSome?_eq_some h
  cases attached with
  | action other name' =>
    simp only [Attribute.actionOn?] at hsome
    split at hsome
    next hother => cases hsome; exact hother ▸ hmem
    next => cases hsome
  | _ => cases hsome

theorem action_mem_of_foreignKey? {occasion : Occasion} {name : String}
    (h : self.foreignKey? = some reference) (haction : reference.action? occasion = some name) :
    .action occasion name ∈ self.attributes := by
  obtain ⟨_, _, rfl⟩ := Option.map_eq_some_iff.mp h
  cases occasion with
  | delete => exact action_mem_of_findSome? haction
  | update => exact action_mem_of_findSome? haction

end Column

namespace Table

variable {earlier : List Table} {self : Table}

theorem foreignKeys_sources_sublist (self : Table) :
    (self.foreignKeys.map Reference.source).Sublist (self.columns.map Column.name) := by
  unfold foreignKeys
  induction self.columns with
  | nil => exact .slnil
  | cons column rest ih =>
    cases hkey : column.foreignKey? with
    | none => simpa [hkey] using ih.cons column.name
    | some reference => simpa [hkey, Column.foreignKey?_source hkey] using ih

/-- A reference of a well-formed table leads to a column of an earlier table, and
its actions are known ones. -/
theorem WellFormed.reference (h : self.WellFormed earlier) {reference : Reference}
    (hmem : reference ∈ self.references) :
    (∃ target ∈ earlier, target.name = reference.table ∧
      reference.column ∈ target.columns.map Column.name) ∧
      reference.source ∈ self.columns.map Column.name ∧
      ∀ occasion name, reference.action? occasion = some name →
        name ∈ Action.all.map Action.name := by
  rw [h.references] at hmem
  obtain ⟨column, hcolumn, hkey, hname⟩ := source_of_mem_foreignKeys hmem
  have hattributes := (h.columns column hcolumn).attributes
  refine ⟨hattributes _ (Column.reference_mem_of_foreignKey? hkey), ?_, ?_⟩
  · exact List.mem_map.mpr ⟨column, hcolumn, hname⟩
  · intro occasion name haction
    exact hattributes _ (Column.action_mem_of_foreignKey? hkey haction)

end Table

/-- The tables and columns that a reference names have names that can be written, and
its actions are known ones. -/
structure Reference.Named (reference : Reference) : Prop where
  source : isName reference.source
  table : isName reference.table
  column : isName reference.column
  actions : ∀ occasion name, reference.action? occasion = some name →
    name ∈ Action.all.map Action.name

namespace Schema

variable {schema : Schema}

theorem WellFormed.reference_named (h : schema.WellFormed) {table : Table}
    (htable : table ∈ schema.tables) {reference : Reference} (hmem : reference ∈ table.references) :
    reference.Named := by
  obtain ⟨earlier, hearlier, hwell⟩ := h.tables.of_mem htable
  obtain ⟨⟨target, htarget, htargetName, hkey⟩, hsource, hactions⟩ := hwell.reference hmem
  obtain ⟨_, _, htargetWell⟩ := h.tables.of_mem (hearlier htarget)
  obtain ⟨column, hcolumn, hsourceName⟩ := List.mem_map.mp hsource
  obtain ⟨key, hkeyMem, hkeyName⟩ := List.mem_map.mp hkey
  exact {
    source := hsourceName ▸ (hwell.columns column hcolumn).name
    table := htargetName ▸ htargetWell.name
    column := hkeyName ▸ (htargetWell.columns key hkeyMem).name
    actions := hactions }

theorem WellFormed.eq_of_name_eq (h : schema.WellFormed) {i j : Nat} {table other : Table}
    (hi : schema.tables[i]? = some table) (hj : schema.tables[j]? = some other)
    (hname : other.name = table.name) : j = i := by
  have hlt : j < (schema.tables.map Table.name).length := by
    simpa using (List.getElem?_eq_some_iff.mp hj).1
  apply (List.getElem?_inj hlt h.distinct).mp
  simp [hi, hj, hname]

end Schema

/-- A statement in a script: the name of the table in its first line, the lines that
define columns and the lines that declare foreign keys. -/
structure StatementLines where
  name : String
  definitions : List String
  keys : List String

namespace StatementLines

/-- The text that the lines make up. -/
def text (self : StatementLines) : String :=
  "CREATE TABLE " ++ self.name ++ " (\n" ++ String.join (self.definitions ++ self.keys) ++ ");"

end StatementLines

namespace CreateTable

/-- The lines of a statement. -/
def lines (self : CreateTable) : StatementLines where
  name := self.name
  definitions := self.columns.map fun definition => "\t" ++ definition.sql ++ ",\n"
  keys := self.references.map fun reference => "\t" ++ reference.sql ++ ",\n"

end CreateTable

/-- A source text compiles to the script of the statements of the schema that it
declares. -/
theorem compile_outcome_eq_ok_iff {source sql : String} :
    (compile source).outcome = .ok sql ↔
      ∃ schema statements, (Schema.parse source).outcome = .ok schema ∧
        schema.statements.outcome = .ok statements ∧ sql = CreateTable.script statements := by
  unfold compile Report.bind Report.mapError Schema.generate
  cases hparse : (Schema.parse source).outcome with
  | error e => simp [Except.mapError]
  | ok schema =>
    cases hstatements : schema.statements.outcome with
    | error e => simp [Except.mapError, Except.map, hstatements]
    | ok statements => simp [Except.mapError, Except.map, hstatements, eq_comm]

/-- A foreign key is kept twice, in the attributes of its column and in the
references of its table. The two agree, no column has more than one foreign
key, and actions stand after the reference that they belong to. -/
theorem Schema.parse_references_eq_foreignKeys {source : String} {schema : Schema}
    (h : (Schema.parse source).outcome = .ok schema) {table : Table}
    (htable : table ∈ schema.tables) :
    table.references = table.foreignKeys ∧ (table.references.map Reference.source).Nodup ∧
      ∀ column ∈ table.columns, ∀ before occasion name after,
        column.attributes = before ++ .action occasion name :: after →
          ∃ target key, .reference target key ∈ before := by
  obtain ⟨earlier, _, hwell⟩ := (parse_wellFormed h).tables.of_mem htable
  refine ⟨hwell.references, ?_, ?_⟩
  · rw [hwell.references]
    exact hwell.distinct.sublist table.foreignKeys_sources_sublist
  · intro column hcolumn before occasion name after hattributes
    exact (hwell.columns column hcolumn).actions before _ after hattributes occasion name rfl

/-- The second table has a foreign key with an action, which is found both among its
references and in the attributes of its column. -/
theorem Schema.parse_references_eq_foreignKeys_with_action :
    ∃ schema table, (Schema.parse
        ("table a\n x int\nend\ntable b\n" ++
          " y int @reference(\"a\",\"x\") @onDelete(\"set null\")\nend")).outcome = .ok schema ∧
      table ∈ schema.tables ∧ table.references = table.foreignKeys ∧
      table.references = [⟨"y", "a", "x", some "SET NULL", none⟩] := by
  have hparse : (Schema.parse
      ("table a\n x int\nend\ntable b\n" ++
        " y int @reference(\"a\",\"x\") @onDelete(\"set null\")\nend")).outcome =
      .ok ⟨.initial, [⟨"a", [⟨"x", .named "int", []⟩], []⟩,
        ⟨"b", [⟨"y", .named "int", [.reference "a" "x", .action .delete "SET NULL"]⟩],
          [⟨"y", "a", "x", some "SET NULL", none⟩]⟩]⟩ := by
    cbv
  have hagree := parse_references_eq_foreignKeys hparse (.tail _ (.head _))
  exact ⟨_, _, hparse, .tail _ (.head _), hagree.1, rfl⟩

end SchemaScript
