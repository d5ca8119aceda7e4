import Mathlib
import SchemaScript.Proofs.Attachment
import SchemaScript.Proofs.Precedence
import SchemaScript.Proofs.Scanning

namespace SchemaScript

/-- A value that can stand between its quotes in a source text. -/
def Argument.Quotable : Argument → Prop
  | .text value => '"' ∉ value.toList
  | .raw value => '\x60' ∉ value.toList

namespace Attribute

/-- The table and the column that a reference attribute names. -/
def target? : Attribute → Option (String × String)
  | .reference table column => some (table, column)
  | _ => none

/-- The action that an attribute gives for an occasion. -/
def actionOn? (occasion : Occasion) : Attribute → Option String
  | .action other name => if other = occasion then some name else none
  | _ => none

/-- What an attribute holds is written as it can be read. A reference goes to a
column of one of the `earlier` tables. -/
def WellFormed (earlier : List Table) : Attribute → Prop
  | .defaultValue value => value.Quotable
  | .rawType literal => '\x60' ∉ literal.toList
  | .reference target key =>
    ∃ table ∈ earlier, table.name = target ∧ key ∈ table.columns.map Column.name
  | .action _ name => name ∈ Action.all.map Action.name
  | _ => True

/-- An action is declared on a reference that stands before it. -/
def AfterReference (before : List Attribute) (self : Attribute) : Prop :=
  ∀ occasion name, self = .action occasion name → ∃ target key, .reference target key ∈ before

end Attribute

namespace Column

/-- The foreign key that the attributes of a column describe. -/
def foreignKey? (self : Column) : Option Reference :=
  (self.attributes.findSome? Attribute.target?).map fun (table, column) =>
    { source := self.name
      table
      column
      onDelete := self.attributes.findSome? (Attribute.actionOn? .delete)
      onUpdate := self.attributes.findSome? (Attribute.actionOn? .update) }

/-- A raw type has its literal in the first attribute and in no other. A named
type has no such attribute. -/
def Typed (self : Column) : Prop :=
  match self.type with
  | .named name => isName name ∧ ∀ attached ∈ self.attributes, attached.kind ≠ .rawType
  | .raw => ∃ literal rest, self.attributes = .rawType literal :: rest ∧
      ∀ attached ∈ rest, attached.kind ≠ .rawType

/-- The column could stand in a table that is declared after the `earlier` ones. -/
structure WellFormed (earlier : List Table) (column : Column) : Prop where
  name : isName column.name
  typed : column.Typed
  kinds : (column.attributes.map Attribute.kind).Nodup
  attributes : ∀ attached ∈ column.attributes, attached.WellFormed earlier
  actions : EachAfter Attribute.AfterReference column.attributes

end Column

namespace Table

/-- The foreign keys that the columns of a table describe, in their order. -/
def foreignKeys (self : Table) : List Reference := self.columns.filterMap Column.foreignKey?

/-- The table could be declared after the `earlier` ones. -/
structure WellFormed (earlier : List Table) (table : Table) : Prop where
  name : isName table.name
  distinct : (table.columns.map Column.name).Nodup
  columns : ∀ column ∈ table.columns, column.WellFormed earlier
  references : table.references = table.foreignKeys

end Table

/-- There is a provider, and there are no keys but the known ones. -/
structure Configuration.WellFormed (configuration : Configuration) : Prop where
  provider : ∃ value, ("provider", value) ∈ configuration.entries
  entries : ∀ entry ∈ configuration.entries, entry.1 ∈ keys ∧ '"' ∉ entry.2.toList

/-- A schema that a source text can declare. -/
structure Schema.WellFormed (schema : Schema) : Prop where
  configuration : schema.configuration.WellFormed
  distinct : (schema.tables.map Table.name).Nodup
  tables : EachAfter Table.WellFormed schema.tables

namespace Column

variable {earlier : List Table} {self : Column} {added : Attribute}

theorem has_eq_false_iff {kind : Attribute.Kind} :
    self.has kind = false ↔ kind ∉ self.attributes.map Attribute.kind := by
  simp [has]

theorem foreignKey?_source {reference : Reference} (h : self.foreignKey? = some reference) :
    reference.source = self.name := by
  obtain ⟨_, _, rfl⟩ := Option.map_eq_some_iff.mp h
  rfl

theorem foreignKey?_isSome_iff :
    self.foreignKey?.isSome ↔ ∃ target key, .reference target key ∈ self.attributes := by
  simp only [foreignKey?, Option.isSome_map, List.findSome?_isSome_iff]
  constructor
  · rintro ⟨attached, hmem, hsome⟩
    cases attached with
    | reference target key => exact ⟨target, key, hmem⟩
    | _ => simp [Attribute.target?] at hsome
  · rintro ⟨target, key, hmem⟩
    exact ⟨_, hmem, rfl⟩

/-- Attributes that are neither references nor actions leave the foreign key alone. -/
theorem foreignKey?_addAttribute_of_plain (htarget : added.target? = none)
    (haction : ∀ occasion, added.actionOn? occasion = none) :
    (self.addAttribute added).foreignKey? = self.foreignKey? := by
  simp [foreignKey?, addAttribute, htarget, haction]

theorem findSome?_actionOn?_eq_none {occasion : Occasion}
    (h : Attribute.Kind.action occasion ∉ self.attributes.map Attribute.kind) :
    self.attributes.findSome? (Attribute.actionOn? occasion) = none := by
  rw [List.findSome?_eq_none_iff]
  intro attached hmem
  cases attached with
  | action other name =>
    have hne : other ≠ occasion := by
      rintro rfl
      exact h (List.mem_map.mpr ⟨_, hmem, rfl⟩)
    simp [Attribute.actionOn?, hne]
  | _ => rfl

/-- A first reference makes a foreign key without actions, since every action
stands after a reference. -/
theorem WellFormed.foreignKey?_addReference (h : self.WellFormed earlier) (target key : String)
    (hnew : Attribute.Kind.reference ∉ self.attributes.map Attribute.kind) :
    self.foreignKey? = none ∧
      (self.addAttribute (.reference target key)).foreignKey? =
        some ⟨self.name, target, key, none, none⟩ := by
  have hnone (target' key' : String) : .reference target' key' ∉ self.attributes := by
    intro hmem
    exact hnew (List.mem_map.mpr ⟨_, hmem, rfl⟩)
  have hkey : self.foreignKey? = none := by
    rw [← Option.not_isSome_iff_eq_none, foreignKey?_isSome_iff]
    rintro ⟨target', key', hmem⟩
    exact hnone target' key' hmem
  have htarget : self.attributes.findSome? Attribute.target? = none := by
    simpa [foreignKey?] using hkey
  have haction (occasion : Occasion) :
      self.attributes.findSome? (Attribute.actionOn? occasion) = none := by
    apply findSome?_actionOn?_eq_none
    rw [List.mem_map]
    rintro ⟨attached, hmem, hkind⟩
    cases attached with
    | action other name =>
      obtain ⟨before, hsubset, hafter⟩ := h.actions.of_mem hmem
      obtain ⟨target', key', hbefore⟩ := hafter other name rfl
      exact hnone target' key' (hsubset hbefore)
    | _ => cases hkind
  refine ⟨hkey, ?_⟩
  simp [foreignKey?, addAttribute, htarget, haction, Attribute.target?, Attribute.actionOn?]

theorem foreignKey?_addAction {reference : Reference} {occasion : Occasion} {name : String}
    (hkey : self.foreignKey? = some reference)
    (hnew : Attribute.Kind.action occasion ∉ self.attributes.map Attribute.kind) :
    (self.addAttribute (.action occasion name)).foreignKey? =
      some (reference.setAction (some name) occasion) := by
  obtain ⟨⟨table, column⟩, htarget, rfl⟩ := Option.map_eq_some_iff.mp hkey
  have hnone := findSome?_actionOn?_eq_none hnew
  cases occasion <;>
    simp [foreignKey?, addAttribute, htarget, hnone, Attribute.actionOn?, Reference.setAction]

theorem Typed.addAttribute (h : self.Typed) (hkind : added.kind ≠ .rawType) :
    (self.addAttribute added).Typed := by
  unfold Typed at h ⊢
  simp only [Column.addAttribute]
  split at h
  next name htype =>
    exact ⟨h.1, List.forall_mem_append.mpr ⟨h.2, List.forall_mem_singleton.mpr hkind⟩⟩
  next htype =>
    obtain ⟨literal, rest, hattributes, hrest⟩ := h
    exact ⟨literal, rest ++ [added], by simp [hattributes],
      List.forall_mem_append.mpr ⟨hrest, List.forall_mem_singleton.mpr hkind⟩⟩

/-- A column stays well formed when an attribute of a new kind is added to it. -/
theorem WellFormed.addAttribute (h : self.WellFormed earlier)
    (hnew : added.kind ∉ self.attributes.map Attribute.kind) (hkind : added.kind ≠ .rawType)
    (hadded : added.WellFormed earlier) (hafter : added.AfterReference self.attributes) :
    (self.addAttribute added).WellFormed earlier where
  name := h.name
  typed := h.typed.addAttribute hkind
  kinds := by simpa [Column.addAttribute] using h.kinds.concat hnew
  attributes := List.forall_mem_append.mpr ⟨h.attributes, List.forall_mem_singleton.mpr hadded⟩
  actions := h.actions.concat hafter

end Column

namespace Table

variable {earlier : List Table} {self changed : Table} {column : Column} {added : Attribute}
variable {source : String}

theorem record?_name (h : self.record? source added = some changed) : changed.name = self.name := by
  cases added with
  | action occasion name =>
    obtain ⟨_, _, rfl⟩ := Option.map_eq_some_iff.mp h
    rfl
  | _ => cases h; rfl

theorem record?_columns (h : self.record? source added = some changed) :
    changed.columns = self.columns := by
  cases added with
  | action occasion name =>
    obtain ⟨_, _, rfl⟩ := Option.map_eq_some_iff.mp h
    rfl
  | _ => cases h; rfl

theorem setAction?_eq_none {occasion : Occasion} {action : Option String}
    (h : ∀ reference ∈ self.references, reference.source ≠ source) :
    self.setAction? source occasion action = none := by
  have hnone : self.references.findIdx? (·.source == source) = none := by
    rw [List.findIdx?_eq_none_iff]
    intro reference hmem
    simpa using h reference hmem
  simp [setAction?, hnone]

/-- An action is set on the last reference when that is the only one from the
column. -/
theorem setAction?_last {occasion : Occasion} {action : Option String} {before : List Reference}
    {last : Reference} (hreferences : self.references = before ++ [last])
    (hbefore : ∀ reference ∈ before, reference.source ≠ source) (hlast : last.source = source) :
    self.setAction? source occasion action =
      some { self with references := before ++ [last.setAction action occasion] } := by
  have hnone : before.findIdx? (·.source == source) = none := by
    rw [List.findIdx?_eq_none_iff]
    intro reference hmem
    simpa using hbefore reference hmem
  have hmodify : (before ++ [last]).modify before.length (·.setAction action occasion) =
      before ++ [last.setAction action occasion] := by
    rw [List.modify_eq_take_cons_drop (by simp)]
    simp
  simp [setAction?, hreferences, hnone, hlast, hmodify]

/-- Recording an attribute of an open column changes the reference of that column
and no other, and keeps it in step with the attributes. -/
theorem record?_references {before : List Reference}
    (hreferences : self.references = before ++ column.foreignKey?.toList)
    (hbefore : ∀ reference ∈ before, reference.source ≠ column.name)
    (hcolumn : column.WellFormed earlier)
    (hnew : added.kind ∉ column.attributes.map Attribute.kind)
    (hrecord : self.record? column.name added = some changed) :
    changed.references = before ++ (column.addAttribute added).foreignKey?.toList ∧
      added.AfterReference column.attributes := by
  cases added with
  | reference target key =>
    obtain ⟨hnone, hsome⟩ := hcolumn.foreignKey?_addReference target key hnew
    cases hrecord
    refine ⟨?_, by simp [Attribute.AfterReference]⟩
    simp [addReference, hreferences, hnone, hsome]
  | action occasion name =>
    simp only [record?] at hrecord
    cases hkey : column.foreignKey? with
    | none =>
      -- No other column lends its reference to the action.
      have hnone : self.setAction? column.name occasion (some name) = none := by
        apply setAction?_eq_none
        simpa [hreferences, hkey] using hbefore
      rw [hnone] at hrecord
      cases hrecord
    | some reference =>
      have hlast := Column.foreignKey?_source hkey
      rw [hkey] at hreferences
      rw [setAction?_last hreferences hbefore hlast] at hrecord
      cases hrecord
      refine ⟨by simp [Column.foreignKey?_addAction hkey hnew], ?_⟩
      intro _ _ _
      exact Column.foreignKey?_isSome_iff.mp (by simp [hkey])
  | _ =>
    cases hrecord
    refine ⟨?_, by simp [Attribute.AfterReference]⟩
    rw [Column.foreignKey?_addAttribute_of_plain rfl (fun _ => rfl), hreferences]

theorem foreignKeys_addColumn :
    (self.addColumn column).foreignKeys = self.foreignKeys ++ column.foreignKey?.toList := by
  cases hkey : column.foreignKey? <;> simp [foreignKeys, addColumn, hkey]

theorem source_of_mem_foreignKeys {reference : Reference} (h : reference ∈ self.foreignKeys) :
    ∃ column ∈ self.columns, column.foreignKey? = some reference ∧
      column.name = reference.source := by
  obtain ⟨column, hmem, hkey⟩ := List.mem_filterMap.mp h
  exact ⟨column, hmem, hkey, (Column.foreignKey?_source hkey).symm⟩

end Table

namespace Attribute

variable {schema : Schema} {name : String} {arguments : List Argument} {added : Attribute}

theorem Declared.wellFormed (h : Declared name arguments added)
    (harguments : ∀ argument ∈ arguments, argument.Quotable) (hresolves : added.Resolves schema) :
    added.WellFormed schema.tables := by
  cases h.takes with
  | primaryKey | autoIncrement | nullable => trivial
  | defaultValue value => exact harguments value List.mem_cons_self
  | reference target key =>
    obtain ⟨found, hfound, hcolumn⟩ := hresolves
    obtain ⟨column, hcolumn⟩ := Option.isSome_iff_exists.mp hcolumn
    refine ⟨found, List.mem_of_find?_eq_some hfound, by simpa using List.find?_some hfound, ?_⟩
    rw [List.mem_map]
    exact ⟨column, List.mem_of_find?_eq_some hcolumn, by simpa using List.find?_some hcolumn⟩
  | @action occasion action text _ => cases action <;> simp [WellFormed, Action.all, Action.name]

end Attribute

namespace Clause

variable {schema : Schema} {self : Clause} {table : Table} {column : Column}

/-- Attaching a clause keeps the open table well formed, the open column being
counted as its last one. -/
theorem attach_wellFormed (h : (self.table.addColumn self.column).WellFormed schema.tables)
    (harguments : ∀ argument ∈ self.arguments, argument.Quotable)
    (hattach : self.attach schema = .ok (table, column)) :
    (table.addColumn column).WellFormed schema.tables ∧ table.name = self.table.name := by
  obtain ⟨added, hdeclared, hnew, hresolves, hrecord, rfl⟩ := attach_eq_ok_iff.mp hattach
  rw [Column.has_eq_false_iff] at hnew
  have hname := Table.record?_name hrecord
  have hcolumns := Table.record?_columns hrecord
  have hopen : self.column.WellFormed schema.tables := h.columns _ (by simp [Table.addColumn])
  have hfresh : self.column.name ∉ self.table.columns.map Column.name :=
    not_mem_map_of_nodup_concat h.distinct
  have hreferences : self.table.references =
      self.table.foreignKeys ++ self.column.foreignKey?.toList := by
    rw [← Table.foreignKeys_addColumn, ← h.references]
    rfl
  have hbefore : ∀ reference ∈ self.table.foreignKeys, reference.source ≠ self.column.name := by
    intro reference hmem hsource
    obtain ⟨other, hother, _, hothername⟩ := Table.source_of_mem_foreignKeys hmem
    exact hfresh (List.mem_map.mpr ⟨other, hother, hothername.trans hsource⟩)
  obtain ⟨hchanged, hafter⟩ := Table.record?_references hreferences hbefore hopen hnew hrecord
  have hadded := hopen.addAttribute hnew hdeclared.takes.kind_ne_rawType
    (hdeclared.wellFormed harguments hresolves) hafter
  refine ⟨⟨hname ▸ h.name, ?_, ?_, ?_⟩, hname⟩
  · have hdistinct := h.distinct
    simp only [Table.addColumn, List.map_append, List.map_singleton] at hdistinct ⊢
    rw [hcolumns]
    exact hdistinct
  · simp only [Table.addColumn, hcolumns]
    exact List.forall_mem_append.mpr
      ⟨(List.forall_mem_append.mp h.columns).1, List.forall_mem_singleton.mpr hadded⟩
  · rw [Table.foreignKeys_addColumn]
    simpa [Table.addColumn, Table.foreignKeys, hcolumns] using hchanged

end Clause

end SchemaScript
