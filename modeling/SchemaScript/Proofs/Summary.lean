import Mathlib
import SchemaScript.Proofs.Containment
import SchemaScript.Proofs.Decoding

namespace SchemaScript

/-- The type is a logical one with the given SQL type. -/
def DataType.Means (self : DataType) (type : String) : Prop :=
  ∃ name, self = .named name ∧ Dialect.sqlite.sqlType? name = some type

/-- The SQL type that a logical type is to have. There is none for a raw type. -/
def DataType.summary : DataType → String
  | .named name => (Dialect.sqlite.sqlType? name).getD ""
  | .raw => ""

/-- What the SQL text is to say of a column, read off its attributes. -/
def Column.summary (self : Column) : ColumnDefinition where
  name := self.name
  type := self.type.summary
  primaryKey := .primaryKey ∈ self.attributes
  defaultValue := (self.attributes.findSome? Attribute.textDefault?).map .text
  autoIncrement := .autoIncrement ∈ self.attributes
  nullable := .nullable ∈ self.attributes

/-- What the SQL text is to say of a table. -/
def Table.summary (self : Table) : CreateTable :=
  ⟨self.name, self.columns.map Column.summary, self.references⟩

/-- What the SQL text of a schema without raw types is to say. -/
def Schema.summary (self : Schema) : List CreateTable := self.tables.map Table.summary

/-- Nothing of the column is passed through to the SQL text as it is. -/
@[mk_iff plain_iff]
structure Column.Plain (column : Column) : Prop where
  type : column.type ≠ .raw
  defaults : ∀ value, .defaultValue (.raw value) ∉ column.attributes

/-- Nothing of the schema is passed through to the SQL text as it is. -/
def Schema.Plain (schema : Schema) : Prop :=
  ∀ table ∈ schema.tables, ∀ column ∈ table.columns, column.Plain

/-- The columns differ in synonyms of types and in the order of attributes alone. -/
structure Column.Resembles (column other : Column) : Prop where
  name : column.name = other.name
  type : ∃ type, column.type.Means type ∧ other.type.Means type
  attributes : column.attributes.Perm other.attributes

/-- The tables have columns that resemble each other, and the same references. -/
structure Table.Resembles (table other : Table) : Prop where
  name : table.name = other.name
  columns : List.Forall₂ Column.Resembles table.columns other.columns
  references : table.references = other.references

/-- The schemas differ in synonyms of types, in the order of attributes and in settings
alone. -/
def Schema.Resembles (schema other : Schema) : Prop :=
  List.Forall₂ Table.Resembles schema.tables other.tables

theorem DataType.Means.summary {self : DataType} {type : String} (h : self.Means type) :
    self.summary = type := by
  obtain ⟨name, rfl, htype⟩ := h
  simp [DataType.summary, htype]

namespace Attribute

theorem textDefault?_eq_some_iff {self : Attribute} {text : String} :
    self.textDefault? = some text ↔ self = .defaultValue (.text text) := by
  cases self with
  | defaultValue value => cases value <;> simp [textDefault?, default?, Argument.text?]
  | _ => simp [textDefault?, default?]

theorem default?_eq_some_iff {self : Attribute} {value : Argument} :
    self.default? = some value ↔ self = .defaultValue value := by
  cases self <;> simp [default?]

theorem target?_eq_some_iff {self : Attribute} {target : String × String} :
    self.target? = some target ↔ self = .reference target.1 target.2 := by
  cases self <;> simp [target?, Prod.ext_iff]

theorem actionOn?_eq_some_iff {self : Attribute} {occasion : Occasion} {name : String} :
    self.actionOn? occasion = some name ↔ self = .action occasion name := by
  cases self <;> simp [actionOn?]

variable {β : Type} {attributes : List Attribute}

/-- What is looked for in one kind of attribute is found wherever the attribute stands. -/
theorem findSome?_eq_some_iff_mem (hkinds : (attributes.map kind).Nodup)
    {look : Attribute → Option β} {build : β → Attribute}
    (hlook : ∀ {attached value}, look attached = some value ↔ attached = build value)
    (hbuild : ∀ value other, (build value).kind = (build other).kind) {value : β} :
    attributes.findSome? look = some value ↔ build value ∈ attributes := by
  constructor
  · intro hfound
    obtain ⟨attached, hmem, hattached⟩ := List.exists_of_findSome?_eq_some hfound
    rwa [← hlook.mp hattached]
  · intro hmem
    have hsome : (attributes.findSome? look).isSome :=
      List.findSome?_isSome_iff.mpr ⟨_, hmem, by rw [hlook.mpr rfl]; rfl⟩
    obtain ⟨other, hother⟩ := Option.isSome_iff_exists.mp hsome
    obtain ⟨attached, hmem', hattached⟩ := List.exists_of_findSome?_eq_some hother
    obtain rfl := hlook.mp hattached
    have hsame := List.inj_on_of_nodup_map hkinds hmem' hmem (hbuild other value)
    rwa [hother, ← hattached, hlook]

end Attribute

namespace Column

variable {self : Column} {earlier : List Table}

/-- An attribute without arguments is alone of its kind. -/
theorem has_eq_decide_mem (self : Column) {flag : Attribute}
    (hflag : flag ∈ [Attribute.primaryKey, .autoIncrement, .nullable]) :
    self.has flag.kind = decide (flag ∈ self.attributes) := by
  have halone : ∀ other : Attribute, other.kind = flag.kind → other = flag := by
    intro other hkind
    fin_cases hflag <;> cases other <;> first | rfl | cases hkind
  rw [Bool.eq_iff_iff, has, List.any_eq_true, decide_eq_true_iff]
  constructor
  · rintro ⟨attached, hmem, hkind⟩
    rwa [← halone attached (eq_of_beq hkind)]
  · intro hmem
    exact ⟨flag, hmem, beq_self_eq_true _⟩

theorem foreignKey?_action? {reference : Reference} (h : self.foreignKey? = some reference)
    (occasion : Occasion) :
    reference.action? occasion = self.attributes.findSome? (Attribute.actionOn? occasion) := by
  obtain ⟨_, _, rfl⟩ := Option.map_eq_some_iff.mp h
  cases occasion <;> rfl

theorem Plain.rawType_not_mem (h : self.Plain) (htyped : self.Typed) (literal : String) :
    .rawType literal ∉ self.attributes := by
  intro hmem
  unfold Typed at htyped
  cases htype : self.type with
  | raw => exact h.type htype
  | named name =>
    rw [htype] at htyped
    exact htyped.2 _ hmem rfl

/-- The attributes that a column has by its definition and its foreign key. -/
def Implies (definition : ColumnDefinition) (key : Option Reference) : Attribute → Prop
  | .primaryKey => definition.primaryKey = true
  | .autoIncrement => definition.autoIncrement = true
  | .nullable => definition.nullable = true
  | .defaultValue value => definition.defaultValue = some value
  | .reference table column => ∃ reference, key = some reference ∧
      reference.table = table ∧ reference.column = column
  | .action occasion name => ∃ reference, key = some reference ∧
      reference.action? occasion = some name
  | .rawType _ => False

namespace WellFormed

theorem summary_default_iff (h : self.WellFormed earlier) (hplain : self.Plain)
    {value : Argument} :
    self.summary.defaultValue = some value ↔ .defaultValue value ∈ self.attributes := by
  have hfind : ∀ text, self.attributes.findSome? Attribute.textDefault? = some text ↔
      .defaultValue (.text text) ∈ self.attributes := fun text =>
    Attribute.findSome?_eq_some_iff_mem h.kinds Attribute.textDefault?_eq_some_iff fun _ _ => rfl
  simp only [summary, Option.map_eq_some_iff, hfind]
  constructor
  · rintro ⟨text, hmem, rfl⟩
    exact hmem
  · intro hmem
    cases value with
    | text text => exact ⟨text, hmem, rfl⟩
    | raw value => exact absurd hmem (hplain.defaults value)

theorem foreignKey?_isSome_of_action (h : self.WellFormed earlier) {occasion : Occasion}
    {name : String} (hmem : .action occasion name ∈ self.attributes) :
    ∃ reference, self.foreignKey? = some reference := by
  obtain ⟨before, after, hsplit⟩ := List.append_of_mem hmem
  obtain ⟨target, key, hbefore⟩ := h.actions before _ after hsplit occasion name rfl
  rw [← Option.isSome_iff_exists, foreignKey?_isSome_iff]
  exact ⟨target, key, by simp [hsplit, hbefore]⟩

/-- A column has no attributes but those of its summary and of its foreign key. -/
theorem mem_attributes_iff (h : self.WellFormed earlier) (hplain : self.Plain)
    {attached : Attribute} :
    attached ∈ self.attributes ↔ Implies self.summary self.foreignKey? attached := by
  cases attached with
  | primaryKey => simp [Implies, summary]
  | autoIncrement => simp [Implies, summary]
  | nullable => simp [Implies, summary]
  | defaultValue value => exact (h.summary_default_iff hplain).symm
  | reference table column =>
    constructor
    · intro hmem
      have htarget : self.attributes.findSome? Attribute.target? = some (table, column) :=
        (Attribute.findSome?_eq_some_iff_mem h.kinds Attribute.target?_eq_some_iff
          fun _ _ => rfl).mpr hmem
      exact ⟨_, by rw [foreignKey?, htarget]; rfl, rfl, rfl⟩
    · rintro ⟨reference, hkey, rfl, rfl⟩
      exact reference_mem_of_foreignKey? hkey
  | action occasion name =>
    constructor
    · intro hmem
      obtain ⟨reference, hkey⟩ := h.foreignKey?_isSome_of_action hmem
      refine ⟨reference, hkey, ?_⟩
      rw [foreignKey?_action? hkey]
      exact (Attribute.findSome?_eq_some_iff_mem h.kinds Attribute.actionOn?_eq_some_iff
        fun _ _ => rfl).mpr hmem
    · rintro ⟨reference, hkey, haction⟩
      exact action_mem_of_foreignKey? hkey haction
  | rawType literal => simp [Implies, hplain.rawType_not_mem h.typed]

end WellFormed

end Column

namespace ColumnDefinition.Defines

variable {definition : ColumnDefinition} {column : Column} {earlier : List Table}

theorem means (h : definition.Defines .sqlite column) (hplain : column.Plain) :
    column.type.Means definition.type := by
  rcases Column.sqlType_eq_ok_iff.mp h.type with hnamed | ⟨hraw, _⟩
  · exact hnamed
  · exact absurd hraw hplain.type

theorem eq_summary (h : definition.Defines .sqlite column) (hwell : column.WellFormed earlier)
    (hplain : column.Plain) : definition = column.summary := by
  have htype : definition.type = column.summary.type := (h.means hplain).summary.symm
  have hdefault : definition.defaultValue = column.summary.defaultValue := by
    have hkinds : (column.attributes.reverse.map Attribute.kind).Nodup := by
      simpa [List.map_reverse] using hwell.kinds
    apply Option.ext
    intro value
    -- Of several defaults the last one counts, but there is only one.
    rw [h.defaultValue, List.getLast?_filterMap,
      Attribute.findSome?_eq_some_iff_mem hkinds Attribute.default?_eq_some_iff fun _ _ => rfl,
      List.mem_reverse, hwell.summary_default_iff hplain]
  have hkey : definition.primaryKey = column.summary.primaryKey :=
    h.primaryKey.trans (column.has_eq_decide_mem (.head _))
  have hauto : definition.autoIncrement = column.summary.autoIncrement :=
    h.autoIncrement.trans (column.has_eq_decide_mem (.tail _ (.head _)))
  have hnull : definition.nullable = column.summary.nullable :=
    h.nullable.trans (column.has_eq_decide_mem (.tail _ (.tail _ (.head _))))
  calc definition
    _ = ⟨definition.name, definition.type, definition.primaryKey, definition.defaultValue,
          definition.autoIncrement, definition.nullable⟩ := rfl
    _ = column.summary := by rw [h.name, htype, hkey, hdefault, hauto, hnull]; rfl

end ColumnDefinition.Defines

namespace Table

variable {self other : Table} {earlier : List Table}

/-- What is needed to tell a table from its summary. -/
structure Decodable (table : Table) : Prop where
  wellFormed : ∃ earlier, table.WellFormed earlier
  plain : ∀ column ∈ table.columns, column.Plain
  types : ∀ column ∈ table.columns, column.type.Means column.summary.type

/-- The foreign key of a column is the reference from it. -/
theorem WellFormed.foreignKey?_eq_reference? (h : self.WellFormed earlier) {column : Column}
    (hcolumn : column ∈ self.columns) : column.foreignKey? = self.reference? column.name := by
  cases hfound : self.reference? column.name with
  | some reference =>
    have hmem : reference ∈ self.references := List.mem_of_find?_eq_some hfound
    have hsource := List.find?_some hfound
    rw [h.references] at hmem
    obtain ⟨other, hother, hkey, hname⟩ := source_of_mem_foreignKeys hmem
    obtain rfl := List.inj_on_of_nodup_map h.distinct hother hcolumn
      (hname.trans (eq_of_beq hsource))
    exact hkey
  | none =>
    rw [Option.eq_none_iff_forall_ne_some]
    intro reference hkey
    have hmem : reference ∈ self.references := by
      rw [h.references]
      exact List.mem_filterMap.mpr ⟨column, hcolumn, hkey⟩
    have hother := List.find?_eq_none.mp hfound reference hmem
    exact hother (beq_iff_eq.mpr (Column.foreignKey?_source hkey))

namespace Decodable

theorem resembles_of_summary_eq (h : self.Decodable) (hother : other.Decodable)
    (hsummary : self.summary = other.summary) : self.Resembles other := by
  obtain ⟨hname, hcolumns, hreferences⟩ := CreateTable.mk.inj hsummary
  obtain ⟨earlier, hwell⟩ := h.wellFormed
  obtain ⟨earlier', hwell'⟩ := hother.wellFormed
  have hsame : List.Forall₂ (fun column column' => column.summary = column'.summary)
      self.columns other.columns := by
    rwa [← List.forall₂_eq_eq_eq, List.forall₂_map_left_iff, List.forall₂_map_right_iff] at hcolumns
  refine ⟨hname, (forall₂_and_mem hsame).imp ?_, hreferences⟩
  rintro column column' ⟨heq, hcolumn, hcolumn'⟩
  have hcolumnName : column.name = column'.name := congrArg ColumnDefinition.name heq
  have hkey : column.foreignKey? = column'.foreignKey? := by
    rw [hwell.foreignKey?_eq_reference? hcolumn, hwell'.foreignKey?_eq_reference? hcolumn',
      reference?, reference?, hreferences, hcolumnName]
  have hattributes := hwell.columns column hcolumn
  have hattributes' := hwell'.columns column' hcolumn'
  refine ⟨hcolumnName, ⟨column.summary.type, h.types column hcolumn, ?_⟩, ?_⟩
  · rw [heq]
    exact hother.types column' hcolumn'
  · rw [List.perm_ext_iff_of_nodup hattributes.kinds.of_map hattributes'.kinds.of_map]
    intro attached
    rw [hattributes.mem_attributes_iff (h.plain column hcolumn),
      hattributes'.mem_attributes_iff (hother.plain column' hcolumn'), heq, hkey]

theorem summary_eq_of_resembles (h : self.Decodable) (hother : other.Decodable)
    (hresembles : self.Resembles other) : self.summary = other.summary := by
  obtain ⟨earlier, hwell⟩ := h.wellFormed
  obtain ⟨earlier', hwell'⟩ := hother.wellFormed
  have hcolumns : self.columns.map Column.summary = other.columns.map Column.summary := by
    apply map_eq_map_of_forall₂ (forall₂_and_mem hresembles.columns)
    rintro column column' ⟨⟨hname, ⟨type, hmeans, hmeans'⟩, hperm⟩, hcolumn, hcolumn'⟩
    have hdefault : column.summary.defaultValue = column'.summary.defaultValue := by
      apply Option.ext
      intro value
      rw [(hwell.columns column hcolumn).summary_default_iff (h.plain column hcolumn),
        (hwell'.columns column' hcolumn').summary_default_iff (hother.plain column' hcolumn'),
        hperm.mem_iff]
    simp only [Column.summary] at hdefault ⊢
    simp only [hname, hmeans.summary, hmeans'.summary, hperm.mem_iff, hdefault]
  simp only [summary, hresembles.name, hcolumns, hresembles.references]

theorem readable (h : self.Decodable)
    (hreferences : ∀ reference ∈ self.references, reference.Named) : self.summary.Readable := by
  obtain ⟨earlier, hwell⟩ := h.wellFormed
  refine ⟨isWord_of_isName hwell.name, ?_, hreferences⟩
  intro definition hmem
  obtain ⟨column, hcolumn, rfl⟩ := List.mem_map.mp hmem
  obtain ⟨name, _, htype⟩ := h.types column hcolumn
  refine ⟨isWord_of_isName (hwell.columns column hcolumn).name, ?_, ?_⟩
  · exact List.mem_map.mpr ⟨_, Dialect.mem_types_of_sqlType? htype, rfl⟩
  · intro value hvalue
    obtain ⟨text, _, rfl⟩ := Option.map_eq_some_iff.mp hvalue
    exact ⟨text, rfl⟩

end Decodable

end Table

theorem CreateTable.Defines.eq_summary {statement : CreateTable} {table : Table}
    {earlier : List Table} (h : statement.Defines .sqlite table)
    (hwell : table.WellFormed earlier) (hplain : ∀ column ∈ table.columns, column.Plain) :
    statement = table.summary ∧ table.Decodable := by
  have hdefines := forall₂_and_mem h.columns
  have hcolumns : statement.columns.map id = table.columns.map Column.summary := by
    apply map_eq_map_of_forall₂ hdefines
    rintro definition column ⟨hdefines, _, hcolumn⟩
    exact hdefines.eq_summary (hwell.columns column hcolumn) (hplain column hcolumn)
  rw [List.map_id] at hcolumns
  constructor
  · calc statement
      _ = ⟨statement.name, statement.columns, statement.references⟩ := rfl
      _ = table.summary := by rw [h.name, hcolumns, h.references]; rfl
  · refine ⟨⟨earlier, hwell⟩, hplain, ?_⟩
    intro column hcolumn
    obtain ⟨definition, _, hdefines⟩ := exists_left_of_mem h.columns hcolumn
    have hmeans := hdefines.means (hplain column hcolumn)
    rwa [hdefines.eq_summary (hwell.columns column hcolumn) (hplain column hcolumn)] at hmeans

namespace Schema

variable {schema other : Schema} {sql : String}

/-- What is generated is the text of the summary. -/
theorem WellFormed.generate_eq_summary (h : schema.WellFormed) (hplain : schema.Plain)
    (hgenerate : schema.generate.outcome = .ok sql) :
    sql = CreateTable.script schema.summary ∧ schema.summary ≠ [] ∧
      ∀ table ∈ schema.tables, table.Decodable := by
  obtain ⟨statements, hstatements, rfl⟩ := generate_eq_ok_iff.mp hgenerate
  obtain ⟨_, hnonempty, hdefines⟩ := statements_eq_ok_iff.mp hstatements
  have hstep : ∀ statement table, statement.Defines .sqlite table → table ∈ schema.tables →
      statement = table.summary ∧ table.Decodable := by
    intro statement table hdefines htable
    obtain ⟨earlier, _, hwell⟩ := h.tables.of_mem htable
    exact hdefines.eq_summary hwell (hplain table htable)
  have hsummary : statements.map id = schema.summary := by
    apply map_eq_map_of_forall₂ (forall₂_and_mem hdefines)
    rintro statement table ⟨hdefines, _, htable⟩
    exact (hstep statement table hdefines htable).1
  rw [List.map_id] at hsummary
  refine ⟨by rw [hsummary], by simpa [summary] using hnonempty, ?_⟩
  intro table htable
  obtain ⟨statement, _, hdefines⟩ := exists_left_of_mem hdefines htable
  exact (hstep statement table hdefines htable).2

theorem summary_eq_iff_resembles (h : ∀ table ∈ schema.tables, table.Decodable)
    (hother : ∀ table ∈ other.tables, table.Decodable) :
    schema.summary = other.summary ↔ schema.Resembles other := by
  constructor
  · intro hsummary
    have hsame : List.Forall₂ (fun table table' => table.summary = table'.summary)
        schema.tables other.tables := by
      rwa [summary, summary, ← List.forall₂_eq_eq_eq, List.forall₂_map_left_iff,
        List.forall₂_map_right_iff] at hsummary
    exact (forall₂_and_mem hsame).imp fun table table' ⟨heq, htable, htable'⟩ =>
      (h table htable).resembles_of_summary_eq (hother table' htable') heq
  · intro hresembles
    apply map_eq_map_of_forall₂ (forall₂_and_mem hresembles)
    rintro table table' ⟨hresembles, htable, htable'⟩
    exact (h table htable).summary_eq_of_resembles (hother table' htable') hresembles

theorem WellFormed.decode_generate (h : schema.WellFormed) (hplain : schema.Plain)
    (hgenerate : schema.generate.outcome = .ok sql) :
    CreateTable.decode sql = some schema.summary := by
  obtain ⟨rfl, hnonempty, hdecodable⟩ := h.generate_eq_summary hplain hgenerate
  apply CreateTable.decode_script hnonempty
  intro statement hmem
  obtain ⟨table, htable, rfl⟩ := List.mem_map.mp hmem
  exact (hdecodable table htable).readable fun _ hreference => h.reference_named htable hreference

/-- The SQL text of a schema that passes nothing through can be read back: there is a
decoder that gives the summary of the schema. Two such schemas have the same SQL text
when they differ in synonyms of types, in the order of attributes and in settings, and
only then. -/
theorem generate_decodable :
    (∀ source schema sql, (Schema.parse source).outcome = .ok schema → schema.Plain →
      schema.generate.outcome = .ok sql → CreateTable.decode sql = some schema.summary) ∧
    ∀ source source' schema other sql sql', (Schema.parse source).outcome = .ok schema →
      (Schema.parse source').outcome = .ok other → schema.Plain → other.Plain →
      schema.generate.outcome = .ok sql → other.generate.outcome = .ok sql' →
      (sql = sql' ↔ schema.Resembles other) := by
  constructor
  · intro source schema sql hparse hplain hgenerate
    exact (parse_wellFormed hparse).decode_generate hplain hgenerate
  · intro source source' schema other sql sql' hparse hparse' hplain hplain' hgenerate hgenerate'
    have hwell := parse_wellFormed hparse
    have hwell' := parse_wellFormed hparse'
    obtain ⟨hsql, _, hdecodable⟩ := hwell.generate_eq_summary hplain hgenerate
    obtain ⟨hsql', _, hdecodable'⟩ := hwell'.generate_eq_summary hplain' hgenerate'
    rw [← summary_eq_iff_resembles hdecodable hdecodable']
    constructor
    · rintro rfl
      have hdecode := hwell.decode_generate hplain hgenerate
      exact Option.some.inj (hdecode.symm.trans (hwell'.decode_generate hplain' hgenerate'))
    · intro hsummary
      rw [hsql, hsql', hsummary]

/-- A default that looks like another line, in a column that looks like a reference, with
two spellings of one table. -/
theorem generate_decodable_with_synonym :
    ∃ schema other sql,
      (Schema.parse "table a\n FOREIGN int @id @default(\"',\n\tb\")\nend").outcome = .ok schema ∧
      (Schema.parse ("set url \"u\"\ntable a\n" ++
        " FOREIGN integer @default(\"',\n\tb\") @id\nend")).outcome = .ok other ∧
      schema.Plain ∧ other.Plain ∧ schema.generate.outcome = .ok sql ∧
      other.generate.outcome = .ok sql ∧
      CreateTable.decode sql =
        some [⟨"a", [⟨"FOREIGN", "INTEGER", true, some (.text "',\n\tb"), false, false⟩], []⟩] ∧
      schema.Resembles other := by
  have hparse : (Schema.parse
      "table a\n FOREIGN int @id @default(\"',\n\tb\")\nend").outcome =
      .ok ⟨.initial, [⟨"a", [⟨"FOREIGN", .named "int",
        [.primaryKey, .defaultValue (.text "',\n\tb")]⟩], []⟩]⟩ := by
    cbv
  have hparse' : (Schema.parse ("set url \"u\"\ntable a\n" ++
      " FOREIGN integer @default(\"',\n\tb\") @id\nend")).outcome =
      .ok ⟨.insert .initial "url" "u", [⟨"a", [⟨"FOREIGN", .named "integer",
        [.defaultValue (.text "',\n\tb"), .primaryKey]⟩], []⟩]⟩ := by
    cbv
  have hplain : Schema.Plain ⟨.initial, [⟨"a", [⟨"FOREIGN", .named "int",
      [.primaryKey, .defaultValue (.text "',\n\tb")]⟩], []⟩]⟩ := by
    simp [Schema.Plain, Column.plain_iff]
  have hplain' : Schema.Plain ⟨.insert .initial "url" "u", [⟨"a", [⟨"FOREIGN", .named "integer",
      [.defaultValue (.text "',\n\tb"), .primaryKey]⟩], []⟩]⟩ := by
    simp [Schema.Plain, Column.plain_iff]
  have hstatements : (⟨.initial, [⟨"a", [⟨"FOREIGN", .named "int",
      [.primaryKey, .defaultValue (.text "',\n\tb")]⟩], []⟩]⟩ : Schema).statements.outcome =
      .ok [⟨"a", [⟨"FOREIGN", "INTEGER", true, some (.text "',\n\tb"), false, false⟩], []⟩] := by
    decide +kernel
  have hstatements' : (⟨.insert .initial "url" "u", [⟨"a", [⟨"FOREIGN", .named "integer",
      [.defaultValue (.text "',\n\tb"), .primaryKey]⟩], []⟩]⟩ : Schema).statements.outcome =
      .ok [⟨"a", [⟨"FOREIGN", "INTEGER", true, some (.text "',\n\tb"), false, false⟩], []⟩] := by
    decide +kernel
  have hgenerate := generate_eq_ok_iff.mpr ⟨_, hstatements, rfl⟩
  have hgenerate' := generate_eq_ok_iff.mpr ⟨_, hstatements', rfl⟩
  exact ⟨_, _, _, hparse, hparse', hplain, hplain', hgenerate, hgenerate',
    generate_decodable.1 _ _ _ hparse hplain hgenerate,
    (generate_decodable.2 _ _ _ _ _ _ hparse hparse' hplain hplain' hgenerate hgenerate').mp rfl⟩

end Schema

end SchemaScript
