import Mathlib
import SchemaScript.Compile
import SchemaScript.Proofs.Generation
import SchemaScript.Proofs.Invariant
import SchemaScript.Proofs.Printing

namespace SchemaScript

/-- The type of a column can be written in SQL. -/
structure Column.Usable (column : Column) : Prop where
  named : ∀ name, column.type = .named name →
    name ∈ ["int", "integer", "string", "boolean", "bool", "datetime", "float", "blob"]
  raw : ∀ literal, .rawType literal ∈ column.attributes → literal ≠ ""

/-- What a schema that was read still needs to be generated. -/
structure Schema.Usable (schema : Schema) : Prop where
  provider : schema.configuration.provider = "sqlite"
  nonempty : schema.tables ≠ []
  tables : ∀ table ∈ schema.tables, table.columns ≠ []
  columns : ∀ table ∈ schema.tables, ∀ column ∈ table.columns, column.Usable

/-- The error tells of a schema that is not usable. The other errors tell of names and
types that no source text can give. -/
def GenerationError.AboutUse : GenerationError → Prop
  | .badTableName _ | .badColumnName _ _ | .missingRawType _ => False
  | _ => True

/-- What the grammar takes for a name needs no quotes in SQL. -/
theorem isSqlName_of_isName {text : String} (h : isName text) : isSqlName text := by
  obtain ⟨c, cs, htext, hstart, hcontinue⟩ := exists_of_isWord (isWord_of_isName h)
  simp only [startsWord, continuesWord, Bool.or_eq_true] at hstart hcontinue
  simp only [isSqlName, htext, Bool.and_eq_true, Bool.or_eq_true, List.all_eq_true]
  exact ⟨hstart, fun d hd => .inl (hcontinue d hd)⟩

variable {dialect : Dialect}

theorem Dialect.exists_sqlType?_iff {name : String} :
    (∃ type, dialect.sqlType? name = some type) ↔ name ∈ dialect.types.map Prod.fst := by
  rw [← Option.isSome_iff_exists, sqlType?, List.lookup_isSome_iff, List.mem_map]
  exact exists_congr fun entry => and_congr_right fun _ => beq_iff_eq.trans eq_comm

namespace Column

variable {earlier : List Table} {self : Column} {table : String}

theorem exists_defines_iff :
    (∃ definition, ColumnDefinition.Defines dialect definition self) ↔
      isSqlName self.name ∧ ∃ type, self.sqlType dialect = .ok type := by
  constructor
  · rintro ⟨definition, h⟩
    exact ⟨h.valid, _, h.type⟩
  · rintro ⟨hvalid, type, htype⟩
    exact ⟨⟨_, type, _, _, _, _⟩, hvalid, rfl, htype, rfl, rfl, rfl, rfl⟩

/-- The literal of a raw type is the only one on its column. -/
theorem Typed.exists_rawType (h : self.Typed) (htype : self.type = .raw) :
    ∃ literal, self.attributes.findSome? Attribute.rawType? = some literal ∧
      ∀ other, .rawType other ∈ self.attributes ↔ other = literal := by
  simp only [Typed, htype] at h
  obtain ⟨literal, rest, hattributes, hrest⟩ := h
  refine ⟨literal, by rw [hattributes]; rfl, fun other => ?_⟩
  have hother : .rawType other ∉ rest := fun hmem => hrest _ hmem rfl
  simp [hattributes, hother]

theorem Typed.rawType_not_mem {name literal : String} (h : self.Typed)
    (htype : self.type = .named name) : .rawType literal ∉ self.attributes := by
  simp only [Typed, htype] at h
  exact fun hmem => h.2 _ hmem rfl

theorem Typed.exists_sqlType_iff (h : self.Typed) :
    (∃ type, self.sqlType .sqlite = .ok type) ↔ self.Usable := by
  simp only [sqlType_eq_ok_iff]
  constructor
  · rintro ⟨type, ⟨name, htype, hfound⟩ | ⟨htype, hfound, hne⟩⟩
    · refine ⟨fun other hother => ?_, fun literal hmem => absurd hmem (h.rawType_not_mem htype)⟩
      cases htype.symm.trans hother
      exact Dialect.exists_sqlType?_iff.mp ⟨type, hfound⟩
    · refine ⟨fun other hother => by simp [htype] at hother, fun literal hmem => ?_⟩
      obtain ⟨only, honly, hmem_iff⟩ := h.exists_rawType htype
      obtain rfl : type = only := Option.some.inj (hfound.symm.trans honly)
      rwa [(hmem_iff literal).mp hmem]
  · intro husable
    cases htype : self.type with
    | named name =>
      obtain ⟨type, hfound⟩ := Dialect.exists_sqlType?_iff.mpr (husable.named name htype)
      exact ⟨type, .inl ⟨name, rfl, hfound⟩⟩
    | raw =>
      obtain ⟨literal, hliteral, hmem_iff⟩ := h.exists_rawType htype
      exact ⟨literal, .inr ⟨rfl, hliteral, husable.raw literal ((hmem_iff literal).mpr rfl)⟩⟩

theorem Typed.aboutUse_of_sqlType {error : GenerationError} (h : self.Typed)
    (herror : self.sqlType dialect = .error error) : error.AboutUse := by
  unfold sqlType at herror
  cases htype : self.type with
  | named name =>
    rw [htype] at herror
    cases hfound : dialect.sqlType? name with
    | none =>
      simp only [hfound] at herror
      cases herror
      trivial
    | some type => simp [hfound] at herror
  | raw =>
    obtain ⟨literal, hliteral, _⟩ := h.exists_rawType htype
    simp only [htype, hliteral] at herror
    split at herror
    · cases herror
      trivial
    · cases herror

theorem WellFormed.aboutUse_of_definition {error : GenerationError} (h : self.WellFormed earlier)
    (herror : self.definition dialect table = .error error) : error.AboutUse := by
  have hname := isSqlName_of_isName h.name
  unfold definition at herror
  simp only [hname, Bool.not_true, Bool.false_eq_true, if_false] at herror
  split at herror
  next htype =>
    cases herror
    exact h.typed.aboutUse_of_sqlType htype
  next => cases herror

theorem aboutUse_of_definitions {columns : List Column} {error : GenerationError}
    (h : ∀ column ∈ columns, column.WellFormed earlier)
    (herror : definitions dialect table columns = .error error) : error.AboutUse := by
  induction columns with
  | nil => cases herror
  | cons column rest ih =>
    rw [List.forall_mem_cons] at h
    rw [definitions] at herror
    split at herror
    next hdefinition =>
      cases herror
      exact h.1.aboutUse_of_definition hdefinition
    next =>
      split at herror
      next hrest =>
        cases herror
        exact ih h.2 hrest
      next => cases herror

end Column

namespace Table

variable {earlier : List Table} {self : Table} {error : GenerationError}

theorem exists_defines_iff :
    (∃ statement, CreateTable.Defines dialect statement self) ↔
      isSqlName self.name ∧ self.columns ≠ [] ∧
        ∀ column ∈ self.columns, isSqlName column.name ∧
          ∃ type, column.sqlType dialect = .ok type := by
  simp only [← Column.exists_defines_iff, ← exists_forall₂_iff]
  constructor
  · rintro ⟨statement, h⟩
    exact ⟨h.valid, h.nonempty, _, h.columns⟩
  · rintro ⟨hvalid, hnonempty, columns, hcolumns⟩
    exact ⟨⟨_, columns, _⟩, hvalid, hnonempty, rfl, hcolumns, rfl⟩

theorem WellFormed.aboutUse_of_statement (h : self.WellFormed earlier)
    (herror : self.statement dialect = .error error) : error.AboutUse := by
  have hname := isSqlName_of_isName h.name
  unfold statement at herror
  simp only [hname, Bool.not_true, Bool.false_eq_true, if_false] at herror
  split at herror
  · cases herror
    trivial
  split at herror
  next hcolumns =>
    cases herror
    exact Column.aboutUse_of_definitions h.columns hcolumns
  next => cases herror

theorem aboutUse_of_statements {tables : List Table}
    (h : ∀ table ∈ tables, ∃ earlier, table.WellFormed earlier)
    (herror : (statements dialect tables).outcome = .error error) : error.AboutUse := by
  induction tables with
  | nil => cases herror
  | cons table rest ih =>
    rw [List.forall_mem_cons] at h
    rw [statements] at herror
    split at herror
    next hstatement =>
      cases herror
      obtain ⟨earlier, hwell⟩ := h.1
      exact hwell.aboutUse_of_statement hstatement
    next =>
      cases hrest : (statements dialect rest).outcome with
      | ok later => simp [hrest, Except.map] at herror
      | error e =>
        simp only [hrest, Except.map, Except.error.injEq] at herror
        exact ih h.2 (herror ▸ hrest)

end Table

namespace Schema

variable {self : Schema}

theorem exists_generate_iff :
    (∃ sql, self.generate.outcome = .ok sql) ↔
      self.configuration.provider = "sqlite" ∧ self.tables ≠ [] ∧
        ∀ table ∈ self.tables, isSqlName table.name ∧ table.columns ≠ [] ∧
          ∀ column ∈ table.columns, isSqlName column.name ∧
            ∃ type, column.sqlType .sqlite = .ok type := by
  simp only [← Table.exists_defines_iff, ← exists_forall₂_iff, generate_eq_ok_iff,
    statements_eq_ok_iff]
  constructor
  · rintro ⟨sql, statements, ⟨hprovider, hnonempty, hdefines⟩, _⟩
    exact ⟨hprovider, hnonempty, statements, hdefines⟩
  · rintro ⟨hprovider, hnonempty, statements, hdefines⟩
    exact ⟨_, statements, ⟨hprovider, hnonempty, hdefines⟩, rfl⟩

theorem WellFormed.exists_earlier (h : self.WellFormed) :
    ∀ table ∈ self.tables, ∃ earlier, table.WellFormed earlier := by
  intro table hmem
  obtain ⟨earlier, _, hwell⟩ := h.tables.of_mem hmem
  exact ⟨earlier, hwell⟩

/-- The names of a well-formed schema pass every check. -/
theorem WellFormed.exists_generate_iff_usable (h : self.WellFormed) :
    (∃ sql, self.generate.outcome = .ok sql) ↔ self.Usable := by
  have htable := h.exists_earlier
  rw [exists_generate_iff]
  constructor
  · rintro ⟨hprovider, hnonempty, htables⟩
    refine ⟨hprovider, hnonempty, fun table hmem => (htables table hmem).2.1, ?_⟩
    intro table hmem column hcolumn
    obtain ⟨earlier, hwell⟩ := htable table hmem
    have htyped := (hwell.columns column hcolumn).typed
    exact htyped.exists_sqlType_iff.mp ((htables table hmem).2.2 column hcolumn).2
  · intro husable
    refine ⟨husable.provider, husable.nonempty, fun table hmem => ?_⟩
    obtain ⟨earlier, hwell⟩ := htable table hmem
    refine ⟨isSqlName_of_isName hwell.name, husable.tables table hmem, fun column hcolumn => ?_⟩
    have hcolumnwell := hwell.columns column hcolumn
    exact ⟨isSqlName_of_isName hcolumnwell.name,
      hcolumnwell.typed.exists_sqlType_iff.mpr (husable.columns table hmem column hcolumn)⟩

theorem WellFormed.aboutUse_of_generate {error : GenerationError} (h : self.WellFormed)
    (herror : self.generate.outcome = .error error) : error.AboutUse := by
  have hstatements : self.statements.outcome = .error error := by
    unfold generate at herror
    cases houtcome : self.statements.outcome with
    | ok statements => simp [houtcome, Except.map] at herror
    | error e => simpa [houtcome, Except.map] using herror
  unfold statements at hstatements
  split at hstatements
  · cases hstatements
    trivial
  split at hstatements
  · cases hstatements
    trivial
  · exact Table.aboutUse_of_statements h.exists_earlier hstatements

end Schema

theorem compile_outcome_eq_generation_iff {source : String} {error : GenerationError} :
    (compile source).outcome = .error (.generation error) ↔
      ∃ schema, (Schema.parse source).outcome = .ok schema ∧
        schema.generate.outcome = .error error := by
  cases hparse : (Schema.parse source).outcome with
  | error e => simp [compile, Report.bind, Report.mapError, hparse, Except.mapError]
  | ok schema =>
    rw [compile_outcome_of_parse hparse]
    cases hgenerate : schema.generate.outcome <;> simp [Except.mapError, hgenerate]

/-- Reader and generator agree on what a schema is. A schema that was read is generated
exactly when it is usable, so that compiling a text never ends with an error about
a name or about a raw type that is missing. -/
theorem Schema.parse_generate_iff_usable (source : String) :
    (∀ schema, (parse source).outcome = .ok schema →
      ((∃ sql, schema.generate.outcome = .ok sql) ↔ schema.Usable)) ∧
    ∀ error, (compile source).outcome = .error (.generation error) →
      (∀ name, error ≠ .badTableName name) ∧
        (∀ name table, error ≠ .badColumnName name table) ∧
        ∀ column, error ≠ .missingRawType column := by
  refine ⟨fun schema h => (parse_wellFormed h).exists_generate_iff_usable, ?_⟩
  intro error herror
  obtain ⟨schema, hparse, hgenerate⟩ := compile_outcome_eq_generation_iff.mp herror
  have haboutUse := (parse_wellFormed hparse).aboutUse_of_generate hgenerate
  refine ⟨?_, ?_, ?_⟩
  · rintro name rfl
    exact haboutUse
  · rintro name table rfl
    exact haboutUse
  · rintro column rfl
    exact haboutUse

/-- An empty raw type is read, but not generated. -/
theorem Schema.parse_generate_iff_usable_of_raw :
    ∃ schema, (parse "table a\n x `` @id\nend").outcome = .ok schema ∧ ¬ schema.Usable ∧
      ¬ ∃ sql, schema.generate.outcome = .ok sql := by
  have hparse : (parse "table a\n x `` @id\nend").outcome =
      .ok ⟨.initial, [⟨"a", [⟨"x", .raw, [.rawType "", .primaryKey]⟩], []⟩]⟩ := by
    cbv
  have hunusable : ¬ Usable ⟨.initial,
      [⟨"a", [⟨"x", .raw, [.rawType "", .primaryKey]⟩], []⟩]⟩ := by
    intro husable
    exact (husable.columns _ (.head _) _ (.head _)).raw "" (.head _) rfl
  exact ⟨_, hparse, hunusable,
    mt ((parse_generate_iff_usable _).1 _ hparse).mp hunusable⟩

end SchemaScript
