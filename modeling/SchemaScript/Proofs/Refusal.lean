import Mathlib
import SchemaScript.Proofs.Lookup
import SchemaScript.Proofs.Modularity
import SchemaScript.Proofs.Usability

namespace SchemaScript

/-- A letter or an underscore, then letters, digits, underscores and dollar signs, up to
the end of the text. -/
def SqlName (text : String) : Prop :=
  ∃ first rest, text.toList = first :: rest ∧ (Letter first ∨ first = '_') ∧
    ∀ c ∈ rest, Letter c ∨ ('0' ≤ c ∧ c ≤ '9') ∨ c = '_' ∨ c = '$'

theorem isSqlName_iff {text : String} : isSqlName text ↔ SqlName text := by
  unfold isSqlName SqlName
  cases htext : text.toList with
  | nil => simp
  | cons first rest =>
    simp only [Bool.and_eq_true, Bool.or_eq_true, beq_iff_eq, List.all_eq_true, Char.isAlphanum,
      ← letter_iff_isAlpha, isDigit_iff, or_assoc, List.cons.injEq]
    constructor
    · rintro ⟨hfirst, hrest⟩
      exact ⟨first, rest, ⟨rfl, rfl⟩, hfirst, hrest⟩
    · rintro ⟨_, _, ⟨rfl, rfl⟩, hfirst, hrest⟩
      exact ⟨hfirst, hrest⟩

section FirstFlaw

variable {α : Type} {Sound : α → Prop} {Flaw : α → GenerationError → Prop} {item : α}
  {items later : List α} {error : GenerationError}

/-- The error is that of an item which has only sound ones before it. -/
def FirstFlaw (Sound : α → Prop) (Flaw : α → GenerationError → Prop) (items : List α)
    (error : GenerationError) : Prop :=
  ∃ before item after, items = before ++ item :: after ∧ (∀ earlier ∈ before, Sound earlier) ∧
    Flaw item error

theorem not_firstFlaw_nil : ¬ FirstFlaw Sound Flaw [] error := by
  rintro ⟨before, item, after, hitems, _⟩
  simp at hitems

theorem firstFlaw_cons :
    FirstFlaw Sound Flaw (item :: items) error ↔
      Flaw item error ∨ Sound item ∧ FirstFlaw Sound Flaw items error := by
  constructor
  · rintro ⟨before, flawed, after, hitems, hbefore, hflaw⟩
    cases before with
    | nil =>
      cases hitems
      exact .inl hflaw
    | cons first before =>
      cases hitems
      rw [List.forall_mem_cons] at hbefore
      exact .inr ⟨hbefore.1, before, flawed, after, rfl, hbefore.2, hflaw⟩
  · rintro (hflaw | ⟨hsound, before, flawed, after, rfl, hbefore, hflaw⟩)
    · exact ⟨[], item, items, rfl, nofun, hflaw⟩
    · exact ⟨item :: before, flawed, after, rfl, List.forall_mem_cons.mpr ⟨hsound, hbefore⟩, hflaw⟩

/-- What comes later counts only if everything before it is sound. -/
theorem firstFlaw_append :
    FirstFlaw Sound Flaw (items ++ later) error ↔
      FirstFlaw Sound Flaw items error ∨
        (∀ item ∈ items, Sound item) ∧ FirstFlaw Sound Flaw later error := by
  induction items with
  | nil => simp [not_firstFlaw_nil]
  | cons item items ih =>
    rw [List.cons_append, firstFlaw_cons, ih, firstFlaw_cons, List.forall_mem_cons, and_or_left,
      or_assoc, and_assoc]

end FirstFlaw

namespace Column

/-- The literal is that of the first raw type attribute. -/
def FirstRawType (column : Column) (literal : String) : Prop :=
  ∃ before after, column.attributes = before ++ .rawType literal :: after ∧
    ∀ other, .rawType other ∉ before

/-- The names of types that are known. -/
def typeNames : List String :=
  ["int", "integer", "string", "boolean", "bool", "datetime", "float", "blob"]

/-- The type is one of the known names, or a raw type with a text. -/
inductive TypeResolves (column : Column) : Prop where
  | named {name : String} (htype : column.type = .named name) (hknown : name ∈ typeNames)
  | raw {literal : String} (htype : column.type = .raw) (hliteral : column.FirstRawType literal)
      (hne : literal ≠ "")

/-- The column can be generated. -/
structure Sound (column : Column) : Prop where
  name : SqlName column.name
  type : column.TypeResolves

/-- What is wrong with the type of a column. -/
inductive TypeFlaw (column : Column) : GenerationError → Prop where
  | unknown {name : String} (htype : column.type = .named name) (hunknown : name ∉ typeNames) :
      TypeFlaw column (.unknownType name)
  | missing (htype : column.type = .raw)
      (hmissing : ∀ literal, .rawType literal ∉ column.attributes) :
      TypeFlaw column (.missingRawType column.name)
  | empty (htype : column.type = .raw) (hempty : column.FirstRawType "") :
      TypeFlaw column (.emptyRawType column.name)

/-- What is wrong with a column of the table. The name is looked at before the type. -/
inductive Flaw (table : String) (column : Column) : GenerationError → Prop where
  | name (hname : ¬ SqlName column.name) : Flaw table column (.badColumnName column.name table)
  | type {error : GenerationError} (hname : SqlName column.name) (htype : column.TypeFlaw error) :
      Flaw table column error

end Column

namespace Table

/-- The table can be generated. -/
structure Sound (table : Table) : Prop where
  name : SqlName table.name
  nonempty : table.columns ≠ []
  columns : ∀ column ∈ table.columns, column.Sound

/-- What is wrong with a table. The columns are looked at last, in their order. -/
inductive Flaw (table : Table) : GenerationError → Prop where
  | name (hname : ¬ SqlName table.name) : Flaw table (.badTableName table.name)
  | noColumns (hname : SqlName table.name) (hcolumns : table.columns = []) :
      Flaw table (.noColumns table.name)
  | column {error : GenerationError} (hname : SqlName table.name)
      (hcolumns : FirstFlaw Column.Sound (Column.Flaw table.name) table.columns error) :
      Flaw table error

end Table

namespace Schema

/-- Nothing else than SQLite is asked for. -/
def ForSqlite (schema : Schema) : Prop :=
  ∀ provider, ("provider", provider) ∈ schema.configuration.entries → provider = "sqlite"

/-- The schema can be generated. One that was built by hand can have any names, types and
attributes. -/
structure Sound (schema : Schema) : Prop where
  provider : schema.ForSqlite
  nonempty : schema.tables ≠ []
  tables : ∀ table ∈ schema.tables, table.Sound

/-- What is wrong with a schema. The tables are looked at last, in their order. -/
inductive Flaw (schema : Schema) : GenerationError → Prop where
  | provider {name : String} (hentry : ("provider", name) ∈ schema.configuration.entries)
      (hname : name ≠ "sqlite") : Flaw schema (.unsupportedProvider name)
  | noTables (hprovider : schema.ForSqlite) (htables : schema.tables = []) : Flaw schema .noTables
  | table {error : GenerationError} (hprovider : schema.ForSqlite)
      (htables : FirstFlaw Table.Sound Table.Flaw schema.tables error) : Flaw schema error

end Schema

namespace Column

variable {self : Column} {table literal name : String} {error : GenerationError}

theorem findSome?_rawType?_eq_some_iff :
    self.attributes.findSome? Attribute.rawType? = some literal ↔ self.FirstRawType literal := by
  rw [List.findSome?_eq_some_iff]
  constructor
  · rintro ⟨before, found, after, hattributes, hfound, hbefore⟩
    cases found <;> cases hfound
    refine ⟨before, after, hattributes, fun other hmem => ?_⟩
    cases hbefore _ hmem
  · rintro ⟨before, after, hattributes, hbefore⟩
    refine ⟨before, _, after, hattributes, rfl, fun other hmem => ?_⟩
    cases other with
    | rawType other => exact absurd hmem (hbefore other)
    | _ => rfl

theorem findSome?_rawType?_eq_none_iff :
    self.attributes.findSome? Attribute.rawType? = none ↔
      ∀ literal, .rawType literal ∉ self.attributes := by
  rw [List.findSome?_eq_none_iff]
  constructor
  · intro h literal hmem
    cases h _ hmem
  · intro h other hmem
    cases other with
    | rawType other => exact absurd hmem (h other)
    | _ => rfl

theorem sqlType?_eq_none_iff : Dialect.sqlite.sqlType? name = none ↔ name ∉ typeNames := by
  rw [← not_iff_not, not_not, ← ne_eq, Option.ne_none_iff_exists']
  exact Dialect.exists_sqlType?_iff

theorem exists_sqlType_iff_resolves :
    (∃ type, self.sqlType .sqlite = .ok type) ↔ self.TypeResolves := by
  simp only [sqlType_eq_ok_iff, findSome?_rawType?_eq_some_iff]
  constructor
  · rintro ⟨type, ⟨name, htype, hfound⟩ | ⟨htype, hfound, hne⟩⟩
    · exact .named htype (Dialect.exists_sqlType?_iff.mp ⟨type, hfound⟩)
    · exact .raw htype hfound hne
  · rintro (⟨htype, hknown⟩ | ⟨htype, hliteral, hne⟩)
    · obtain ⟨type, hfound⟩ := Dialect.exists_sqlType?_iff.mpr hknown
      exact ⟨type, .inl ⟨_, htype, hfound⟩⟩
    · exact ⟨_, .inr ⟨htype, hliteral, hne⟩⟩

theorem sqlType_eq_error_iff : self.sqlType .sqlite = .error error ↔ self.TypeFlaw error := by
  constructor
  · intro h
    unfold sqlType at h
    cases htype : self.type with
    | named name =>
      cases hfound : Dialect.sqlite.sqlType? name with
      | some type => simp [htype, hfound] at h
      | none =>
        simp only [htype, hfound] at h
        cases h
        exact .unknown htype (sqlType?_eq_none_iff.mp hfound)
    | raw =>
      cases hfound : self.attributes.findSome? Attribute.rawType? with
      | none =>
        simp only [htype, hfound] at h
        cases h
        exact .missing htype (findSome?_rawType?_eq_none_iff.mp hfound)
      | some literal =>
        simp only [htype, hfound] at h
        split at h
        next hempty =>
          cases h
          exact .empty htype (findSome?_rawType?_eq_some_iff.mp (hempty ▸ hfound))
        next => cases h
  · intro h
    cases h with
    | unknown htype hunknown => simp [sqlType, htype, sqlType?_eq_none_iff.mpr hunknown]
    | missing htype hmissing => simp [sqlType, htype, findSome?_rawType?_eq_none_iff.mpr hmissing]
    | empty htype hempty => simp [sqlType, htype, findSome?_rawType?_eq_some_iff.mpr hempty]

theorem exists_defines_iff_sound :
    (∃ definition, ColumnDefinition.Defines .sqlite definition self) ↔ self.Sound := by
  rw [exists_defines_iff, isSqlName_iff, exists_sqlType_iff_resolves]
  exact ⟨fun h => ⟨h.1, h.2⟩, fun h => ⟨h.name, h.type⟩⟩

theorem definition_eq_error_iff :
    self.definition .sqlite table = .error error ↔ self.Flaw table error := by
  constructor
  · intro h
    unfold definition at h
    split at h
    next hname =>
      cases h
      exact .name (by simpa [← isSqlName_iff] using hname)
    next hname =>
      split at h
      next htype =>
        cases h
        exact .type (by simpa [← isSqlName_iff] using hname) (sqlType_eq_error_iff.mp htype)
      next => cases h
  · intro h
    cases h with
    | name hname =>
      rw [← isSqlName_iff] at hname
      simp [definition, hname]
    | type hname htype =>
      rw [← isSqlName_iff] at hname
      simp [definition, hname, sqlType_eq_error_iff.mpr htype]

theorem definitions_eq_error_iff {columns : List Column} :
    definitions .sqlite table columns = .error error ↔
      FirstFlaw Sound (Flaw table) columns error := by
  induction columns with
  | nil => simp [definitions, not_firstFlaw_nil]
  | cons column rest ih =>
    rw [firstFlaw_cons, ← ih, ← definition_eq_error_iff, ← exists_defines_iff_sound, definitions]
    simp only [← @definition_eq_ok_iff .sqlite column table]
    cases column.definition .sqlite table with
    | error e => simp
    | ok definition => cases definitions .sqlite table rest <;> simp

end Column

namespace Table

variable {self : Table} {error : GenerationError}

theorem exists_defines_iff_sound :
    (∃ statement, CreateTable.Defines .sqlite statement self) ↔ self.Sound := by
  rw [exists_defines_iff, isSqlName_iff]
  simp only [← Column.exists_defines_iff, Column.exists_defines_iff_sound]
  exact ⟨fun h => ⟨h.1, h.2.1, h.2.2⟩, fun h => ⟨h.name, h.nonempty, h.columns⟩⟩

theorem statement_eq_error_iff : self.statement .sqlite = .error error ↔ self.Flaw error := by
  constructor
  · intro h
    unfold statement at h
    split at h
    next hname =>
      cases h
      exact .name (by simpa [← isSqlName_iff] using hname)
    next hname =>
      have hname : SqlName self.name := by simpa [← isSqlName_iff] using hname
      split at h
      next hempty =>
        cases h
        exact .noColumns hname (by simpa using hempty)
      next =>
        split at h
        next hcolumns =>
          cases h
          exact .column hname (Column.definitions_eq_error_iff.mp hcolumns)
        next => cases h
  · intro h
    cases h with
    | name hname =>
      rw [← isSqlName_iff] at hname
      simp [statement, hname]
    | noColumns hname hcolumns =>
      rw [← isSqlName_iff] at hname
      simp [statement, hname, hcolumns]
    | column hname hcolumns =>
      rw [← isSqlName_iff] at hname
      have hnonempty : self.columns ≠ [] := by
        intro hempty
        rw [hempty] at hcolumns
        exact not_firstFlaw_nil hcolumns
      simp [statement, hname, hnonempty, Column.definitions_eq_error_iff.mpr hcolumns]

theorem statements_eq_error_iff {tables : List Table} :
    (statements .sqlite tables).outcome = .error error ↔ FirstFlaw Sound Flaw tables error := by
  induction tables with
  | nil => simp [statements, not_firstFlaw_nil]
  | cons table rest ih =>
    rw [firstFlaw_cons, ← ih, ← statement_eq_error_iff, ← exists_defines_iff_sound, statements]
    simp only [← statement_eq_ok_iff]
    cases table.statement .sqlite with
    | error e => simp
    | ok statement => cases (statements .sqlite rest).outcome <;> simp [Except.map]

/-- More columns leave a flaw what it is, but for the flaw that there are none. -/
theorem Flaw.extend {name : String} {columns more : List Column}
    {references references' : List Reference} (h : Flaw ⟨name, columns, references⟩ error)
    (hcolumns : error ≠ .noColumns name ∨ more = []) :
    Flaw ⟨name, columns ++ more, references'⟩ error := by
  cases h with
  | name hname => exact .name hname
  | noColumns hname hnone =>
    obtain rfl := hcolumns.resolve_left (fun hne => hne rfl)
    exact .noColumns hname (List.append_eq_nil_iff.mpr ⟨hnone, rfl⟩)
  | column hname hflaw => exact .column hname (firstFlaw_append.mpr (.inl hflaw))

end Table

namespace Schema

variable {self : Schema} {error : GenerationError}

theorem provider_eq_sqlite_iff : self.configuration.provider = "sqlite" ↔ self.ForSqlite := by
  simp only [ForSqlite, ← Configuration.get?_eq_some_iff, Configuration.provider]
  cases self.configuration.get? "provider" <;> simp

theorem exists_generate_iff_sound : (∃ sql, self.generate.outcome = .ok sql) ↔ self.Sound := by
  rw [exists_generate_iff, provider_eq_sqlite_iff]
  simp only [← Table.exists_defines_iff, Table.exists_defines_iff_sound]
  exact ⟨fun h => ⟨h.1, h.2.1, h.2.2⟩, fun h => ⟨h.provider, h.nonempty, h.tables⟩⟩

theorem statements_eq_error_iff : self.statements.outcome = .error error ↔ self.Flaw error := by
  constructor
  · intro h
    unfold statements Dialect.ofName? at h
    by_cases hprovider : self.configuration.provider = "sqlite"
    · rw [if_pos hprovider] at h
      rw [provider_eq_sqlite_iff] at hprovider
      by_cases hempty : self.tables = []
      · simp only [hempty, List.isEmpty_nil, if_true] at h
        cases h
        exact .noTables hprovider hempty
      · simp only [List.isEmpty_iff, hempty, if_false] at h
        exact .table hprovider (Table.statements_eq_error_iff.mp h)
    · rw [if_neg hprovider] at h
      cases h
      cases hfound : self.configuration.get? "provider" with
      | none => simp [Configuration.provider, hfound] at hprovider
      | some name =>
        simp only [Configuration.provider, hfound, Option.getD_some] at hprovider ⊢
        exact .provider (Configuration.get?_eq_some_iff.mp hfound) hprovider
  · intro h
    unfold statements Dialect.ofName?
    cases h with
    | provider hentry hname =>
      simp [Configuration.provider, Configuration.get?_eq_some_iff.mpr hentry, hname]
    | noTables hprovider htables => simp [provider_eq_sqlite_iff.mpr hprovider, htables]
    | table hprovider htables =>
      have hnonempty : self.tables ≠ [] := by
        intro hempty
        rw [hempty] at htables
        exact not_firstFlaw_nil htables
      simp [provider_eq_sqlite_iff.mpr hprovider, hnonempty,
        Table.statements_eq_error_iff.mpr htables]

theorem generate_eq_error_iff : self.generate.outcome = .error error ↔ self.Flaw error := by
  rw [← statements_eq_error_iff, generate]
  cases self.statements.outcome <;> simp [Except.map]

theorem Flaw.extend {configuration : Configuration} {before later : List Table} {name : String}
    {columns more : List Column} {references references' : List Reference}
    (h : Flaw ⟨configuration, before ++ [⟨name, columns, references⟩]⟩ error)
    (hcolumns : error ≠ .noColumns name ∨ more = []) :
    Flaw ⟨configuration, before ++ ⟨name, columns ++ more, references'⟩ :: later⟩ error := by
  cases h with
  | provider hentry hname => exact .provider hentry hname
  | noTables _ htables => simp at htables
  | table hprovider htables =>
    refine .table hprovider (firstFlaw_append.mpr ((firstFlaw_append.mp htables).imp_right ?_))
    rintro ⟨hbefore, hlast⟩
    refine ⟨hbefore, firstFlaw_cons.mpr (.inl ?_)⟩
    rcases firstFlaw_cons.mp hlast with hflaw | ⟨_, hnone⟩
    · exact hflaw.extend hcolumns
    · exact absurd hnone not_firstFlaw_nil

/-- A schema is generated exactly when it is sound, and otherwise it is refused for its
first flaw. What comes after that flaw has no part in it, be it columns of the same
table or other tables. Only for a table without columns is it a cure to add some. -/
theorem generate_refuses_first_flaw (self : Schema) :
    ((∃ sql, self.generate.outcome = .ok sql) ↔ self.Sound) ∧
    (∀ error, self.generate.outcome = .error error ↔ self.Flaw error) ∧
    ∀ error before name columns references,
      self.tables = before ++ [⟨name, columns, references⟩] →
      self.generate.outcome = .error error →
      ∀ more references' later, error ≠ .noColumns name ∨ more = [] →
        (generate ⟨self.configuration,
          before ++ ⟨name, columns ++ more, references'⟩ :: later⟩).outcome = .error error := by
  refine ⟨exists_generate_iff_sound, fun error => generate_eq_error_iff, ?_⟩
  intro error before name columns references htables herror more references' later hcolumns
  obtain ⟨configuration, tables⟩ := self
  obtain rfl : tables = before ++ [⟨name, columns, references⟩] := htables
  exact generate_eq_error_iff.mpr ((generate_eq_error_iff.mp herror).extend hcolumns)

/-- A schema that no source text has: without a provider, with two tables of one name,
with two raw types on one column, and with a name that a line break ends. Only the
last is a flaw, and the worse things after it do not count. -/
theorem generate_refuses_first_flaw_of_line_break :
    Flaw ⟨⟨[], .nil⟩, [⟨"a", [⟨"x", .raw, [.rawType "int", .rawType ""]⟩], []⟩,
      ⟨"a", [⟨"y\n", .raw, []⟩], []⟩]⟩ (.badColumnName "y\n" "a") ∧
    (generate ⟨⟨[], .nil⟩, [⟨"a", [⟨"x", .raw, [.rawType "int", .rawType ""]⟩], []⟩,
      ⟨"a", [⟨"y\n", .raw, []⟩, ⟨"z", .named "", []⟩], []⟩, ⟨"", [], []⟩]⟩).outcome =
        .error (.badColumnName "y\n" "a") := by
  have herror : (generate ⟨⟨[], .nil⟩, [⟨"a", [⟨"x", .raw, [.rawType "int", .rawType ""]⟩], []⟩,
      ⟨"a", [⟨"y\n", .raw, []⟩], []⟩]⟩).outcome = .error (.badColumnName "y\n" "a") := by
    decide +kernel
  obtain ⟨_, hflaw, hextend⟩ := generate_refuses_first_flaw _
  exact ⟨(hflaw _).mp herror, hextend _ [_] _ _ _ rfl herror [_] [] [_] (.inl (by decide))⟩

end Schema

end SchemaScript
