import Mathlib
import SchemaScript.Proofs.Grammar
import SchemaScript.Proofs.Invariant

namespace SchemaScript

namespace TypeTree

/-- The type of a column that is declared with it. -/
def dataType : TypeTree → DataType
  | .named name => .named name
  | .raw _ => .raw

/-- The attributes that a type leaves on its column. -/
def attributes : TypeTree → List Attribute
  | .named _ => []
  | .raw literal => [.rawType literal]

end TypeTree

namespace ClauseTree

/-- The clause declares the attribute. -/
def Describes (self : ClauseTree) (declared : Attribute) : Prop :=
  declared.Declared self.name self.arguments

theorem describes_rightUnique : Relator.RightUnique Describes :=
  fun _ _ _ => Attribute.Declared.unique

section

variable {self : ClauseTree} {declared : Attribute}

/-- The kind of an attribute is known by the name of its clause. -/
theorem Describes.kind_eq (h : self.Describes declared) {kind : Attribute.Kind}
    (hname : self.name = kind.name) (hkind : kind ≠ .rawType) : declared.kind = kind :=
  Attribute.Kind.eq_of_name_eq (h.name_eq.trans hname) h.takes.kind_ne_rawType hkind

theorem Describes.eq_reference (h : self.Describes declared) (hname : self.name = "reference") :
    ∃ target key, declared = .reference target key := by
  have hkind : declared.kind = .reference := h.kind_eq hname (by simp)
  cases declared with
  | reference target key => exact ⟨target, key, rfl⟩
  | _ => cases hkind

theorem Describes.eq_action (h : self.Describes declared)
    (hname : self.name = "onDelete" ∨ self.name = "onUpdate") :
    ∃ occasion action, declared = .action occasion action := by
  rcases hname with hname | hname
  · exact ⟨.delete, Attribute.eq_action_of_kind_eq (h.kind_eq hname (by simp))⟩
  · exact ⟨.update, Attribute.eq_action_of_kind_eq (h.kind_eq hname (by simp))⟩

end

end ClauseTree

/-- The column is what the line says. -/
structure ColumnTree.Describes (tree : ColumnTree) (column : Column) : Prop where
  name : tree.name = column.name
  type : column.type = tree.type.dataType
  attributes : ∃ declared, column.attributes = tree.type.attributes ++ declared ∧
    List.Forall₂ ClauseTree.Describes tree.clauses declared

/-- The name and the columns of the table are those that are written. Its
references are not looked at. -/
structure TableTree.Describes (tree : TableTree) (table : Table) : Prop where
  name : tree.name = table.name
  columns : List.Forall₂ ColumnTree.Describes tree.columns table.columns

/-- The settings of a text, each over the earlier ones of its key. -/
def Configuration.ofSettings (settings : List (String × String)) : Configuration :=
  settings.foldl (fun configuration setting => configuration.insert setting.1 setting.2) .initial

/-- The schema is what the items say. -/
structure Item.Describes (items : List Item) (schema : Schema) : Prop where
  configuration : schema.configuration = .ofSettings (settings items)
  tables : List.Forall₂ TableTree.Describes (tables items) schema.tables

namespace ColumnTree.Describes

variable {earlier : List TableTree} {complete : List Table} {tree : ColumnTree}
variable {column : Column}

theorem rightUnique : Relator.RightUnique ColumnTree.Describes := by
  intro tree column other h hother
  obtain ⟨hname, htype, declared, hattributes, hdeclared⟩ := h
  obtain ⟨hname', htype', declared', hattributes', hdeclared'⟩ := hother
  obtain rfl : declared = declared' :=
    List.right_unique_forall₂' ClauseTree.describes_rightUnique hdeclared hdeclared'
  cases column
  cases other
  simp_all

theorem addAttribute {name : String} {type : TypeTree} {clauses : List ClauseTree}
    {clause : ClauseTree} {added : Attribute} (h : Describes ⟨name, type, clauses⟩ column)
    (hadded : clause.Describes added) :
    Describes ⟨name, type, clauses ++ [clause]⟩ (column.addAttribute added) := by
  obtain ⟨hname, htype, declared, hattributes, hdeclared⟩ := h
  refine ⟨hname, htype, declared ++ [added], ?_, forall₂_concat hdeclared hadded⟩
  simp [Column.addAttribute, hattributes]

/-- A line that describes a well-formed column meets the side conditions. -/
theorem admissible (h : tree.Describes column) (hcolumn : column.WellFormed complete)
    (hearlier : List.Forall₂ TableTree.Describes earlier complete) : tree.Admissible earlier := by
  obtain ⟨_, _, declared, hattributes, hdeclared⟩ := h
  constructor
  · intro clause hclause
    obtain ⟨added, hadded, hclauseadded⟩ := exists_right_of_mem hdeclared hclause
    refine ⟨added, hclauseadded, ?_⟩
    rintro target key rfl
    have hwell := hcolumn.attributes (.reference target key) (by simp [hattributes, hadded])
    obtain ⟨table, htable, hname, hkey⟩ := hwell
    obtain ⟨treetable, htree, hdescribes⟩ := exists_left_of_mem hearlier htable
    refine ⟨treetable, htree, hdescribes.name.trans hname, ?_⟩
    rwa [map_eq_map_of_forall₂ hdescribes.columns fun _ _ hcolumn => hcolumn.name]
  · have hnames : tree.clauses.map ClauseTree.name =
        (declared.map Attribute.kind).map Attribute.Kind.name := by
      rw [List.map_map]
      exact map_eq_map_of_forall₂ hdeclared fun _ _ hclause => hclause.name_eq.symm
    have hraw : ∀ kind ∈ declared.map Attribute.kind, kind ≠ .rawType := by
      intro kind hkind
      obtain ⟨added, hadded, rfl⟩ := List.mem_map.mp hkind
      obtain ⟨clause, _, hclause⟩ := exists_left_of_mem hdeclared hadded
      exact hclause.takes.kind_ne_rawType
    have hkinds := hcolumn.kinds
    rw [hattributes, List.map_append] at hkinds
    rw [hnames]
    refine hkinds.of_append_right.map_on ?_
    intro kind hkind other hother hname
    exact Attribute.Kind.eq_of_name_eq hname (hraw kind hkind) (hraw other hother)
  · have hactions := hcolumn.actions
    rw [hattributes] at hactions
    refine hactions.of_append_right.of_forall₂ hdeclared ?_
    intro before clause before' added hbefore hclause hafter hname
    obtain ⟨occasion, action, rfl⟩ := hclause.eq_action hname
    obtain ⟨target, key, hreference⟩ := hafter occasion action rfl
    -- The attribute of a raw type stands first, but it is no reference.
    have hmem : .reference target key ∈ before' := by
      rcases List.mem_append.mp hreference with htype | hmem
      · cases htree : tree.type <;> simp [htree, TypeTree.attributes] at htype
      · exact hmem
    obtain ⟨other, hother, hdescribes⟩ := exists_left_of_mem hbefore hmem
    exact ⟨other, hother, hdescribes.name_eq.symm⟩

end ColumnTree.Describes

namespace TableTree.Describes

variable {earlier : List TableTree} {complete : List Table} {tree : TableTree} {table other : Table}

theorem column_names (h : tree.Describes table) :
    tree.columns.map ColumnTree.name = table.columns.map Column.name :=
  map_eq_map_of_forall₂ h.columns fun _ _ hcolumn => hcolumn.name

theorem congr (h : tree.Describes table) (hname : other.name = table.name)
    (hcolumns : other.columns = table.columns) : tree.Describes other :=
  ⟨h.name.trans hname.symm, hcolumns ▸ h.columns⟩

theorem addColumn {name : String} {columns : List ColumnTree} {column : ColumnTree}
    {added : Column} (h : Describes ⟨name, columns⟩ table) (hadded : column.Describes added) :
    Describes ⟨name, columns ++ [column]⟩ (table.addColumn added) :=
  ⟨h.name, forall₂_concat h.columns hadded⟩

/-- A description and the rules for references leave nothing of a table open. -/
theorem unique (h : tree.Describes table) (hother : tree.Describes other)
    (hreferences : table.references = table.foreignKeys)
    (hreferences' : other.references = other.foreignKeys) : table = other := by
  have hname := h.name.symm.trans hother.name
  have hcolumns := List.right_unique_forall₂' ColumnTree.Describes.rightUnique h.columns
    hother.columns
  cases table
  cases other
  simp_all [Table.foreignKeys]

theorem tables_unique {trees : List TableTree} {tables others : List Table}
    (h : List.Forall₂ TableTree.Describes trees tables)
    (hothers : List.Forall₂ TableTree.Describes trees others)
    (hreferences : ∀ table ∈ tables, table.references = table.foreignKeys)
    (hreferences' : ∀ other ∈ others, other.references = other.foreignKeys) : tables = others := by
  induction h generalizing others with
  | nil =>
    cases hothers
    rfl
  | @cons tree table trees tables htable _ ih =>
    cases hothers with
    | cons hother hrest =>
      rw [List.forall_mem_cons] at hreferences hreferences'
      rw [htable.unique hother hreferences.1 hreferences'.1,
        ih hrest hreferences.2 hreferences'.2]

theorem admissible (h : tree.Describes table) (htable : table.WellFormed complete)
    (hearlier : List.Forall₂ TableTree.Describes earlier complete) : tree.Admissible earlier where
  distinct := by
    rw [h.column_names]
    exact htable.distinct
  columns := by
    intro column hcolumn
    obtain ⟨described, hmem, hdescribes⟩ := exists_right_of_mem h.columns hcolumn
    exact hdescribes.admissible (htable.columns described hmem) hearlier

end TableTree.Describes

namespace Configuration

theorem ofSettings_concat (settings : List (String × String)) (key value : String) :
    ofSettings (settings ++ [(key, value)]) = (ofSettings settings).insert key value := by
  simp [ofSettings]

/-- A later setting can change the value of a key but not take the key away. -/
theorem exists_mem_ofSettings {settings : List (String × String)} {setting : String × String}
    (h : setting ∈ settings) : ∃ value, (setting.1, value) ∈ (ofSettings settings).entries := by
  induction settings using List.reverseRecOn with
  | nil => cases h
  | append_singleton settings last ih =>
    rw [ofSettings_concat]
    by_cases hkey : setting.1 = last.1
    · exact ⟨last.2, hkey ▸ mem_insertEntry_self⟩
    · rcases List.mem_append.mp h with h | h
      · obtain ⟨value, hvalue⟩ := ih h
        exact ⟨value, mem_insertEntry_of_ne hvalue hkey⟩
      · rw [List.mem_singleton.mp h] at hkey
        exact absurd rfl hkey

end Configuration

namespace Item

variable {items : List Item} {tree : TableTree} {key value : String} {schema other : Schema}
variable {table : Table}

@[simp]
theorem tables_concat_table : tables (items ++ [.table tree]) = tables items ++ [tree] := by
  simp [tables]

@[simp]
theorem tables_concat_setting : tables (items ++ [.setting key value]) = tables items := by
  simp [tables]

@[simp]
theorem settings_concat_table : settings (items ++ [.table tree]) = settings items := by
  simp [settings]

@[simp]
theorem settings_concat_setting :
    settings (items ++ [.setting key value]) = settings items ++ [(key, value)] := by
  simp [settings]

namespace Describes

theorem nil : Describes [] .initial := ⟨rfl, .nil⟩

theorem addTable (h : Describes items schema) (htable : tree.Describes table) :
    Describes (items ++ [.table tree]) (schema.addTable table) where
  configuration := by
    rw [settings_concat_table]
    exact h.configuration
  tables := by
    rw [tables_concat_table]
    exact forall₂_concat h.tables htable

theorem configure (h : Describes items schema) (key value : String) :
    Describes (items ++ [.setting key value]) (schema.configure key value) where
  configuration := by
    rw [settings_concat_setting, Configuration.ofSettings_concat, ← h.configuration]
    rfl
  tables := by
    rw [tables_concat_setting]
    exact h.tables

theorem table_names (h : Describes items schema) :
    (Item.tables items).map TableTree.name = schema.tables.map Table.name :=
  map_eq_map_of_forall₂ h.tables fun _ _ htable => htable.name

theorem unique (h : Describes items schema) (hother : Describes items other)
    (hschema : schema.WellFormed) (hwell : other.WellFormed) : schema = other := by
  have hconfiguration := h.configuration.trans hother.configuration.symm
  have htables := TableTree.Describes.tables_unique h.tables hother.tables hschema.references
    hwell.references
  cases schema
  cases other
  simp_all

/-- Items that describe a well-formed schema meet the side conditions. -/
theorem admissible (h : Describes items schema) (hschema : schema.WellFormed) :
    Admissible items where
  keys := by
    intro setting hsetting
    obtain ⟨value, hvalue⟩ := Configuration.exists_mem_ofSettings hsetting
    rw [← h.configuration] at hvalue
    simpa [Configuration.keys] using (hschema.configuration.entries _ hvalue).1
  distinct := by
    rw [h.table_names]
    exact hschema.distinct
  tables := hschema.tables.of_forall₂ h.tables
    fun hbefore htable hwell => htable.admissible hwell hbefore

end Describes

end Item

end SchemaScript
