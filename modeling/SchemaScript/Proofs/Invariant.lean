import Mathlib
import SchemaScript.Proofs.Reading
import SchemaScript.Proofs.WellFormed

namespace SchemaScript

namespace Configuration

variable {key value : String} {entries : List (String × String)} {entry : String × String}

theorem eq_or_mem_of_mem_insertEntry (h : entry ∈ insertEntry key value entries) :
    entry = (key, value) ∨ entry ∈ entries := by
  induction entries with
  | nil => exact .inl (by simpa [insertEntry] using h)
  | cons head rest ih =>
    obtain ⟨k, v⟩ := head
    rw [insertEntry] at h
    split at h
    · exact List.mem_cons.mp h
    split at h
    · exact (List.mem_cons.mp h).imp_right (List.mem_cons_of_mem _)
    · rcases List.mem_cons.mp h with rfl | hrest
      · exact .inr List.mem_cons_self
      · exact (ih hrest).imp_right (List.mem_cons_of_mem _)

theorem mem_insertEntry_self : (key, value) ∈ insertEntry key value entries := by
  induction entries with
  | nil => simp [insertEntry]
  | cons head rest ih =>
    obtain ⟨k, v⟩ := head
    rw [insertEntry]
    split
    · exact List.mem_cons_self
    split
    · exact List.mem_cons_self
    · exact List.mem_cons_of_mem _ ih

theorem mem_insertEntry_of_ne (hmem : entry ∈ entries) (hne : entry.1 ≠ key) :
    entry ∈ insertEntry key value entries := by
  induction entries with
  | nil => cases hmem
  | cons head rest ih =>
    obtain ⟨k, v⟩ := head
    rw [insertEntry]
    split
    · exact List.mem_cons_of_mem _ hmem
    split
    next hkey =>
      rcases List.mem_cons.mp hmem with rfl | hrest
      · exact absurd hkey.symm hne
      · exact List.mem_cons_of_mem _ hrest
    · rcases List.mem_cons.mp hmem with rfl | hrest
      · exact List.mem_cons_self
      · exact List.mem_cons_of_mem _ (ih hrest)

theorem keys_nodup (self : Configuration) : (self.entries.map Prod.fst).Nodup := by
  rw [List.Nodup, List.pairwise_map]
  exact self.sorted.imp fun hlt => Std.ne_of_lt hlt

theorem mem_insert_iff {self : Configuration} :
    entry ∈ (self.insert key value).entries ↔
      entry = (key, value) ∨ entry ∈ self.entries ∧ entry.1 ≠ key := by
  constructor
  · intro hmem
    by_cases hkey : entry.1 = key
    · exact .inl (List.inj_on_of_nodup_map (self.insert key value).keys_nodup hmem
        mem_insertEntry_self hkey)
    · exact (eq_or_mem_of_mem_insertEntry hmem).imp_right fun hmem => ⟨hmem, hkey⟩
  · rintro (rfl | ⟨hmem, hkey⟩)
    · exact mem_insertEntry_self
    · exact mem_insertEntry_of_ne hmem hkey

/-- The order of the keys leaves no choice between the same entries. -/
theorem eq_of_mem_iff {self other : Configuration}
    (h : ∀ entry, entry ∈ self.entries ↔ entry ∈ other.entries) : self = other := by
  have hperm : self.entries.Perm other.entries :=
    (List.perm_ext_iff_of_nodup self.keys_nodup.of_map other.keys_nodup.of_map).mpr h
  have hentries : self.entries = other.entries :=
    hperm.eq_of_pairwise (fun _ _ _ _ hlt hgt => absurd hgt (String.lt_asymm hlt)) self.sorted
      other.sorted
  cases self
  cases other
  cases hentries
  rfl

theorem initial_wellFormed : initial.WellFormed where
  provider := ⟨"sqlite", List.mem_cons_self⟩
  entries := by
    intro entry hmem
    rw [show initial.entries = [("provider", "sqlite")] from rfl, List.mem_singleton] at hmem
    subst hmem
    decide

theorem WellFormed.insert {self : Configuration} (h : self.WellFormed) (hkey : key ∈ keys)
    (hvalue : '"' ∉ value.toList) : (self.insert key value).WellFormed where
  provider := by
    obtain ⟨old, hold⟩ := h.provider
    by_cases hprovider : "provider" = key
    · exact ⟨value, hprovider ▸ mem_insertEntry_self⟩
    · exact ⟨old, mem_insertEntry_of_ne hold hprovider⟩
  entries := by
    intro entry hmem
    rcases eq_or_mem_of_mem_insertEntry hmem with rfl | hold
    · exact ⟨hkey, hvalue⟩
    · exact h.entries entry hold

end Configuration

namespace Table

variable {self : Table} {name : String}

theorem column?_eq_none_iff : self.column? name = none ↔ name ∉ self.columns.map Column.name := by
  simp [column?, List.find?_eq_none]

theorem empty_wellFormed {earlier : List Table} (h : isName name) :
    (empty name).WellFormed earlier where
  name := h
  distinct := .nil
  columns := by simp [empty]
  references := rfl

end Table

namespace Schema

variable {schema : Schema} {table : Table} {name : String}

theorem table?_eq_none_iff : schema.table? name = none ↔ name ∉ schema.tables.map Table.name := by
  simp [table?, List.find?_eq_none]

/-- The table could be the next one of the schema. -/
structure Admits (schema : Schema) (table : Table) : Prop where
  fresh : table.name ∉ schema.tables.map Table.name
  table : table.WellFormed schema.tables

theorem initial_wellFormed : initial.WellFormed where
  configuration := Configuration.initial_wellFormed
  distinct := .nil
  tables := .nil

theorem WellFormed.references (h : schema.WellFormed) :
    ∀ table ∈ schema.tables, table.references = table.foreignKeys := by
  intro table htable
  obtain ⟨earlier, _, hwell⟩ := h.tables.of_mem htable
  exact hwell.references

theorem WellFormed.configure {key value : String} (h : schema.WellFormed)
    (hkey : key ∈ Configuration.keys) (hvalue : '"' ∉ value.toList) :
    (schema.configure key value).WellFormed where
  configuration := h.configuration.insert hkey hvalue
  distinct := h.distinct
  tables := h.tables

theorem WellFormed.addTable (h : schema.WellFormed) (htable : schema.Admits table) :
    (schema.addTable table).WellFormed where
  configuration := h.configuration
  distinct := by simpa [Schema.addTable] using h.distinct.concat htable.fresh
  tables := h.tables.concat htable.table

/-- A column without a foreign key leaves the references of a table as they are. -/
theorem Admits.addColumn {column : Column} (h : schema.Admits table)
    (hcolumn : column.WellFormed schema.tables)
    (hfresh : column.name ∉ table.columns.map Column.name) (hkey : column.foreignKey? = none) :
    schema.Admits (table.addColumn column) where
  fresh := h.fresh
  table := {
    name := h.table.name
    distinct := by simpa [Table.addColumn] using h.table.distinct.concat hfresh
    columns := List.forall_mem_append.mpr ⟨h.table.columns, List.forall_mem_singleton.mpr hcolumn⟩
    references := by
      rw [Table.foreignKeys_addColumn, hkey, ← h.table.references]
      simp [Table.addColumn] }

end Schema

/-- The column of the clause counts as the last one of its table, and the arguments
can be written. -/
structure Clause.WellFormed (schema : Schema) (clause : Clause) : Prop where
  admits : schema.Admits (clause.table.addColumn clause.column)
  arguments : ∀ argument ∈ clause.arguments, argument.Quotable

/-- What a phase holds besides the schema fits the schema. The open column counts
as the last one of the open table. -/
def Phase.WellFormed (schema : Schema) : Phase → Prop
  | .top => True
  | .settingKey => True
  | .settingValue key => key ∈ Configuration.keys
  | .settingEnd key value => key ∈ Configuration.keys ∧ '"' ∉ value.toList
  | .tableName => True
  | .tableEnd name => isName name ∧ name ∉ schema.tables.map Table.name
  | .body table => schema.Admits table
  | .columnType table name =>
    schema.Admits table ∧ isName name ∧ name ∉ table.columns.map Column.name
  | .line table column => schema.Admits (table.addColumn column)
  | .clause pending => pending.WellFormed schema
  | .firstArgument pending => pending.WellFormed schema
  | .nextArgument pending => pending.WellFormed schema
  | .separator pending _ => pending.WellFormed schema

namespace Clause

theorem WellFormed.addArgument {schema : Schema} {self : Clause} {argument : Argument}
    (h : self.WellFormed schema) (hargument : argument.Quotable) :
    (self.addArgument argument).WellFormed schema where
  admits := h.admits
  arguments := List.forall_mem_append.mpr ⟨h.arguments, List.forall_mem_singleton.mpr hargument⟩

theorem WellFormed.attach {schema : Schema} {self : Clause} {table : Table} {column : Column}
    (h : self.WellFormed schema) (hattach : self.attach schema = .ok (table, column)) :
    schema.Admits (table.addColumn column) := by
  obtain ⟨htable, hname⟩ := attach_wellFormed h.admits.table h.arguments hattach
  refine ⟨?_, htable⟩
  have hfresh := h.admits.fresh
  simp only [Table.addColumn] at hfresh ⊢
  rwa [hname]

end Clause

theorem Token.Spelled.quotable {token : Token} {argument : Argument} (hspelled : token.Spelled)
    (h : token.argument? = some argument) : argument.Quotable := by
  unfold Token.Spelled at hspelled
  unfold Token.argument? at h
  split at h
  next hkind => cases h; simpa [hkind, Token.Kind.Spells, Argument.Quotable] using hspelled
  next hkind => cases h; simpa [hkind, Token.Kind.Spells, Argument.Quotable] using hspelled
  next => cases h

theorem Token.Spelled.isName {token : Token} (hspelled : token.Spelled)
    (hkind : token.kind = .identifier) : isName token.literal := by
  simpa [Token.Spelled, hkind, Token.Kind.Spells] using hspelled

namespace Draft

/-- The invariant of reading: the schema and what is open beside it are well formed. -/
structure WellFormed (draft : Draft) : Prop where
  schema : draft.schema.WellFormed
  phase : draft.phase.WellFormed draft.schema

theorem initial_wellFormed : initial.WellFormed := ⟨Schema.initial_wellFormed, trivial⟩

private theorem namedColumn_wellFormed {earlier : List Table} {name type : String}
    (hname : isName name) (htype : isName type) :
    Column.WellFormed earlier ⟨name, .named type, []⟩ where
  name := hname
  typed := ⟨htype, by simp⟩
  kinds := .nil
  attributes := by simp
  actions := .nil

private theorem rawColumn_wellFormed {earlier : List Table} {name literal : String}
    (hname : isName name) (hliteral : '\x60' ∉ literal.toList) :
    Column.WellFormed earlier ⟨name, .raw, [.rawType literal]⟩ where
  name := hname
  typed := ⟨literal, [], rfl, by simp⟩
  kinds := by simp
  attributes := by simpa [Attribute.WellFormed] using hliteral
  actions := EachAfter.nil.concat (by simp [Attribute.AfterReference])

variable {self next : Draft} {token : Token} {tokens : List Token}

theorem Move.wellFormed {schema : Schema} {log : List Event} {phase : Phase}
    (hmove : Move schema log token phase next) (hspelled : token.Spelled)
    (hschema : schema.WellFormed) (hphase : phase.WellFormed schema) : next.WellFormed := by
  induction hmove with
  | skipLine | openTable | openSetting => exact ⟨hschema, trivial⟩
  | nameSetting _ hkey => exact ⟨hschema, hkey⟩
  | giveValue hkind =>
    refine ⟨hschema, hphase, ?_⟩
    rcases hkind with hkind | hkind
    · exact quote_not_mem_of_isName (hspelled.isName hkind)
    · simpa [Token.Spelled, hkind, Token.Kind.Spells] using hspelled
  | closeSetting => exact ⟨hschema.configure hphase.1 hphase.2, trivial⟩
  | nameTable hkind hnew =>
    exact ⟨hschema, hspelled.isName hkind, Schema.table?_eq_none_iff.mp hnew⟩
  | openBody => exact ⟨hschema, hphase.2, Table.empty_wellFormed hphase.1⟩
  | skipBodyLine => exact ⟨hschema, hphase⟩
  | closeTable => exact ⟨hschema.addTable hphase, trivial⟩
  | nameColumn hkind hnew =>
    exact ⟨hschema, hphase, hspelled.isName hkind, Table.column?_eq_none_iff.mp hnew⟩
  | nameType hkind =>
    obtain ⟨hadmits, hname, hfresh⟩ := hphase
    have htype := hspelled.isName hkind
    exact ⟨hschema, hadmits.addColumn (namedColumn_wellFormed hname htype) hfresh rfl⟩
  | giveRawType hkind =>
    obtain ⟨hadmits, hname, hfresh⟩ := hphase
    have hliteral : '\x60' ∉ token.literal.toList := by
      simpa [Token.Spelled, hkind, Token.Kind.Spells] using hspelled
    exact ⟨hschema, hadmits.addColumn (rawColumn_wellFormed hname hliteral) hfresh rfl⟩
  | closeColumn => exact ⟨hschema, hphase⟩
  | openClause => exact ⟨hschema, hphase, by simp⟩
  | openArguments => exact ⟨hschema, hphase⟩
  | closeClause _ hattach _ ih => exact ih (hphase.attach hattach)
  | closeEmptyArguments _ hattach => exact ⟨hschema, hphase.attach hattach⟩
  | firstArgument hargument | nextArgument hargument =>
    exact ⟨hschema, hphase.addArgument (hspelled.quotable hargument)⟩
  | separate => exact ⟨hschema, hphase⟩
  | closeArguments _ hattach => exact ⟨hschema, hphase.attach hattach⟩

/-- Every run keeps the invariant, as long as the literals of the tokens fit their
kinds. -/
theorem Reads.wellFormed (hreads : Reads self tokens next) (h : self.WellFormed)
    (hspelled : ∀ token ∈ tokens, token.Spelled) : next.WellFormed :=
  hreads.keeps (motive := fun _ draft => draft.WellFormed)
    (fun hmem hdraft hmove => hmove.wellFormed (hspelled _ hmem) hdraft.schema hdraft.phase) [] h

end Draft

/-- Whatever is read from a source text is well formed. -/
theorem Schema.parse_wellFormed {source : String} {schema : Schema}
    (h : (parse source).outcome = .ok schema) : schema.WellFormed := by
  obtain ⟨next, hreads, rfl⟩ := Draft.run_outcome_eq_ok_iff.mp h
  exact (hreads.wellFormed Draft.initial_wellFormed (Script.ofText_toList_spelled source)).schema

end SchemaScript
