import Mathlib
import SchemaScript.Proofs.Determinacy
import SchemaScript.Proofs.Modularity
import SchemaScript.Proofs.Summary

namespace SchemaScript

/-- The line is the other one with its clauses in another order, in which actions still
stand behind the reference that they are about. -/
structure ColumnTree.Reorders (line other : ColumnTree) : Prop where
  name : line.name = other.name
  type : line.type = other.type
  clauses : line.clauses.Perm other.clauses
  actions : EachAfter ClauseTree.AfterReference line.clauses

/-- The table is the other one with the clauses of its lines in another order. -/
structure TableTree.Reorders (tree other : TableTree) : Prop where
  name : tree.name = other.name
  columns : List.Forall₂ ColumnTree.Reorders tree.columns other.columns

/-- The item is the other one, up to the order of clauses. -/
inductive Item.Reorders : Item → Item → Prop where
  | table {tree other : TableTree} (h : tree.Reorders other) : Reorders (.table tree) (.table other)
  | setting (key value : String) : Reorders (.setting key value) (.setting key value)

section Conditions

variable {earlier earlier' : List TableTree}

theorem TableTree.Reorders.column_names {tree other : TableTree} (h : tree.Reorders other) :
    tree.columns.map ColumnTree.name = other.columns.map ColumnTree.name :=
  map_eq_map_of_forall₂ h.columns fun _ _ hline => hline.name

theorem ClauseTree.Admissible.of_reorders {self : ClauseTree} (h : self.Admissible earlier)
    (hearlier : List.Forall₂ TableTree.Reorders earlier' earlier) : self.Admissible earlier' := by
  obtain ⟨declared, hdeclared, htarget⟩ := h
  refine ⟨declared, hdeclared, fun target key hreference => ?_⟩
  obtain ⟨table, hmem, hname, hkey⟩ := htarget target key hreference
  obtain ⟨table', hmem', hreorders⟩ := exists_left_of_mem hearlier hmem
  exact ⟨table', hmem', hreorders.name.trans hname, hreorders.column_names ▸ hkey⟩

theorem ColumnTree.Reorders.admissible {line other : ColumnTree} (h : line.Reorders other)
    (hearlier : List.Forall₂ TableTree.Reorders earlier' earlier)
    (hother : other.Admissible earlier) : line.Admissible earlier' where
  clauses := fun clause hmem =>
    (hother.clauses clause (h.clauses.mem_iff.mp hmem)).of_reorders hearlier
  distinct := ((h.clauses.map ClauseTree.name).nodup_iff).mpr hother.distinct
  actions := h.actions

theorem TableTree.Reorders.admissible {tree other : TableTree} (h : tree.Reorders other)
    (hearlier : List.Forall₂ TableTree.Reorders earlier' earlier)
    (hother : other.Admissible earlier) : tree.Admissible earlier' where
  distinct := by
    rw [h.column_names]
    exact hother.distinct
  columns := by
    intro line hline
    obtain ⟨line', hline', hreorders⟩ := exists_right_of_mem h.columns hline
    exact hreorders.admissible hearlier (hother.columns line' hline')

namespace Item

variable {items others : List Item}

theorem tables_reorders (h : List.Forall₂ Reorders items others) :
    List.Forall₂ TableTree.Reorders (tables items) (tables others) := by
  induction h with
  | nil => exact .nil
  | cons hitem _ ih =>
    cases hitem with
    | table htree => exact .cons htree ih
    | setting => exact ih

theorem settings_eq_of_reorders (h : List.Forall₂ Reorders items others) :
    settings items = settings others := by
  induction h with
  | nil => rfl
  | cons hitem _ ih =>
    cases hitem with
    | table htree => exact ih
    | setting key value => exact congrArg ((key, value) :: ·) ih

/-- The other side conditions of the grammar do not look at the order of clauses. -/
theorem Admissible.of_reorders (h : Admissible others)
    (hreorders : List.Forall₂ Reorders items others) : Admissible items where
  keys := by
    rw [settings_eq_of_reorders hreorders]
    exact h.keys
  distinct := by
    rw [map_eq_map_of_forall₂ (tables_reorders hreorders) fun _ _ htree => htree.name]
    exact h.distinct
  tables := h.tables.of_forall₂ (tables_reorders hreorders)
    fun hbefore htree hadmissible => htree.admissible hbefore hadmissible

/-- Items that meet the side conditions have their clauses in such an order already. -/
theorem Admissible.reorders_self (h : Admissible items) : ∀ item ∈ items, item.Reorders item := by
  intro item hitem
  cases item with
  | setting key value => exact .setting key value
  | table tree =>
    obtain ⟨earlier, _, hadmissible⟩ := h.tables.of_mem (mem_tables.mpr hitem)
    refine .table ⟨rfl, List.forall₂_same.mpr fun line hline => ⟨rfl, rfl, .refl _, ?_⟩⟩
    exact (hadmissible.columns line hline).actions

end Item

end Conditions

/-- The columns differ in the order of their attributes alone. -/
structure Column.Rearranges (column other : Column) : Prop where
  name : column.name = other.name
  type : column.type = other.type
  attributes : column.attributes.Perm other.attributes

theorem ColumnTree.Reorders.rearranges {line other : ColumnTree} {column column' : Column}
    (h : line.Reorders other) (hline : line.Describes column) (hother : other.Describes column') :
    column.Rearranges column' := by
  obtain ⟨hname, htype, declared, hattributes, hdeclared⟩ := hline
  obtain ⟨hname', htype', declared', hattributes', hdeclared'⟩ := hother
  obtain ⟨moved, hmoved, hperm⟩ := List.perm_comp_forall₂ h.clauses hdeclared'
  obtain rfl : declared = moved :=
    List.right_unique_forall₂' ClauseTree.describes_rightUnique hdeclared hmoved
  refine ⟨?_, ?_, ?_⟩
  · rw [← hname, ← hname', h.name]
  · rw [htype, htype', h.type]
  · rw [hattributes, hattributes', h.type]
    exact hperm.append_left _

namespace Attribute

variable {β : Type} {attributes others : List Attribute}

theorem rawType?_eq_some_iff {self : Attribute} {literal : String} :
    self.rawType? = some literal ↔ self = .rawType literal := by
  cases self <;> simp [rawType?]

/-- What is looked for in one kind of attribute is found in any order. -/
theorem findSome?_eq_of_perm (hperm : attributes.Perm others) (hkinds : (others.map kind).Nodup)
    {look : Attribute → Option β} {build : β → Attribute}
    (hlook : ∀ {attached value}, look attached = some value ↔ attached = build value)
    (hbuild : ∀ value other, (build value).kind = (build other).kind) :
    attributes.findSome? look = others.findSome? look := by
  have hkinds' := ((hperm.map kind).nodup_iff).mpr hkinds
  refine Option.ext fun value => ?_
  rw [findSome?_eq_some_iff_mem hkinds hlook hbuild, findSome?_eq_some_iff_mem hkinds' hlook hbuild,
    hperm.mem_iff]

end Attribute

namespace Column.Rearranges

variable {column other : Column} {dialect : Dialect}

theorem has_eq (h : column.Rearranges other) (kind : Attribute.Kind) :
    column.has kind = other.has kind :=
  h.attributes.any_eq

theorem sqlType_eq (h : column.Rearranges other)
    (hkinds : (other.attributes.map Attribute.kind).Nodup) :
    column.sqlType dialect = other.sqlType dialect := by
  unfold sqlType
  rw [h.type, h.name, Attribute.findSome?_eq_of_perm h.attributes hkinds
    Attribute.rawType?_eq_some_iff fun _ _ => rfl]

theorem foreignKey?_eq (h : column.Rearranges other)
    (hkinds : (other.attributes.map Attribute.kind).Nodup) :
    column.foreignKey? = other.foreignKey? := by
  have haction (occasion : Occasion) :
      column.attributes.findSome? (Attribute.actionOn? occasion) =
        other.attributes.findSome? (Attribute.actionOn? occasion) :=
    Attribute.findSome?_eq_of_perm h.attributes hkinds Attribute.actionOn?_eq_some_iff
      fun _ _ => rfl
  unfold foreignKey?
  rw [h.name, haction, haction, Attribute.findSome?_eq_of_perm h.attributes hkinds
    Attribute.target?_eq_some_iff fun _ _ => rfl]

/-- Of several defaults the last one counts, but there is only one. -/
theorem default_eq (h : column.Rearranges other)
    (hkinds : (other.attributes.map Attribute.kind).Nodup) :
    (column.attributes.filterMap Attribute.default?).getLast? =
      (other.attributes.filterMap Attribute.default?).getLast? := by
  have hperm : column.attributes.reverse.Perm other.attributes.reverse :=
    (List.reverse_perm _).trans (h.attributes.trans (List.reverse_perm _).symm)
  have hkinds : (other.attributes.reverse.map Attribute.kind).Nodup := by
    simpa [List.map_reverse] using hkinds
  rw [List.getLast?_filterMap, List.getLast?_filterMap]
  exact Attribute.findSome?_eq_of_perm hperm hkinds Attribute.default?_eq_some_iff fun _ _ => rfl

theorem defines {definition : ColumnDefinition} (h : column.Rearranges other)
    (hkinds : (other.attributes.map Attribute.kind).Nodup)
    (hother : definition.Defines dialect other) : definition.Defines dialect column where
  valid := h.name ▸ hother.valid
  name := hother.name.trans h.name.symm
  type := (h.sqlType_eq hkinds).trans hother.type
  primaryKey := hother.primaryKey.trans (h.has_eq _).symm
  defaultValue := hother.defaultValue.trans (h.default_eq hkinds).symm
  autoIncrement := hother.autoIncrement.trans (h.has_eq _).symm
  nullable := hother.nullable.trans (h.has_eq _).symm

end Column.Rearranges

/-- A table is created by the same statement, whatever the order of clauses. -/
theorem TableTree.Reorders.defines {tree other : TableTree} {table table' : Table}
    {earlier : List Table} {dialect : Dialect} {statement : CreateTable} (h : tree.Reorders other)
    (htable : tree.Describes table) (hother : other.Describes table')
    (hreferences : table.references = table.foreignKeys) (hwell : table'.WellFormed earlier)
    (hdefines : statement.Defines dialect table') : statement.Defines dialect table := by
  have hcolumns : List.Forall₂ (fun column column' => column.Rearranges column' ∧
      (column'.attributes.map Attribute.kind).Nodup) table.columns table'.columns := by
    refine forall₂_square h.columns htable.columns (forall₂_and_mem hother.columns) ?_
    rintro line line' column column' hreorders hline ⟨hline', _, hmem⟩
    exact ⟨hreorders.rearranges hline hline', (hwell.columns column' hmem).kinds⟩
  have hkeys : table.foreignKeys = table'.foreignKeys := by
    have hmap := map_eq_map_of_forall₂ hcolumns fun _ _ h => h.1.foreignKey?_eq h.2
    simpa [Table.foreignKeys, List.filterMap_map] using congrArg (List.filterMap id) hmap
  refine ⟨?_, ?_, ?_, ?_, ?_⟩
  · rw [← htable.name, h.name, hother.name]
    exact hdefines.valid
  · intro hempty
    rw [hempty] at hcolumns
    exact hdefines.nonempty (List.forall₂_nil_left_iff.mp hcolumns)
  · rw [hdefines.name, ← htable.name, h.name, hother.name]
  · exact forall₂_carry hcolumns hdefines.columns fun h hdefinition => h.1.defines h.2 hdefinition
  · rw [hdefines.references, hwell.references, ← hkeys, hreferences]

/-- Source texts whose items differ in the order of clauses alone compile to the same SQL
text. -/
theorem compile_of_reorders {source other sql : String} {items others : List Item}
    (h : (compile source).outcome = .ok sql)
    (hrule : SourceRule (Script.ofText source).tokens items)
    (hother : SourceRule (Script.ofText other).tokens others)
    (hreorders : List.Forall₂ Item.Reorders others items) : (compile other).outcome = .ok sql := by
  obtain ⟨schema, statements, hparse, hstatements, rfl⟩ := compile_outcome_eq_ok_iff.mp h
  obtain ⟨hprovider, hnonempty, hdefines⟩ := Schema.statements_eq_ok_iff.mp hstatements
  obtain ⟨hdescribes, hwell⟩ := (Schema.parse_eq_ok_iff_describes hrule).mp hparse
  obtain ⟨schema', hparse', hdescribes'⟩ := Schema.exists_parse_of_derivation hother
    ((hdescribes.admissible hwell).of_reorders hreorders)
  have hwell' := Schema.parse_wellFormed hparse'
  have htables : List.Forall₂ (fun table' table => ∀ statement : CreateTable,
      statement.Defines .sqlite table → statement.Defines .sqlite table')
      schema'.tables schema.tables := by
    refine forall₂_square (Item.tables_reorders hreorders) (forall₂_and_mem hdescribes'.tables)
      (forall₂_and_mem hdescribes.tables) ?_
    rintro tree' tree table' table htree ⟨hdescribes', _, hmem'⟩ ⟨hdescribes, _, hmem⟩ statement
    obtain ⟨earlier, _, hearlier⟩ := hwell.tables.of_mem hmem
    exact htree.defines hdescribes' hdescribes (hwell'.references table' hmem') hearlier
  refine compile_outcome_eq_ok_iff.mpr ⟨schema', statements, hparse', ?_, rfl⟩
  refine Schema.statements_eq_ok_iff.mpr ⟨?_, ?_, ?_⟩
  · rw [hdescribes'.configuration, Item.settings_eq_of_reorders hreorders,
      ← hdescribes.configuration]
    exact hprovider
  · intro hempty
    rw [hempty] at htables
    exact hnonempty (List.forall₂_nil_left_iff.mp htables)
  · exact forall₂_carry htables hdefines fun hsame hstatement => hsame _ hstatement

/-- An action without a reference to change is refused. -/
theorem Clause.attach_of_no_reference {schema : Schema} {self : Clause} {occasion : Occasion}
    {action : String}
    (h : Attribute.Declared self.name.literal self.arguments (.action occasion action))
    (hnew : self.column.has (.action occasion) = false)
    (hnone : ∀ reference ∈ self.table.references, reference.source ≠ self.column.name) :
    self.attach schema = .error (.referenceRequired (.action occasion)) := by
  obtain ⟨table, column, name, arguments⟩ := self
  have hkind : Attribute.Kind.ofName? name.literal = some (.action occasion) := h.ofName?_eq
  cases h.takes with
  | action hspelling =>
    have hnew : column.has (.action occasion) = false := hnew
    simp [attach, hkind, hnew, resolve, Clause.action, Action.ofName?_eq_some_iff.mpr hspelling,
      Table.setAction?_eq_none hnone]

namespace Draft

variable {self : Draft} {tokens : List Token} {opened : TableTree} {name : String}
variable {type : TypeTree} {clauses : List ClauseTree} {tree : ClauseTree}

/-- A line without a reference clause has left no reference from its column. -/
theorem references_of_line {schema : Schema} {table : Table} {column : Column}
    (hadmits : schema.Admits (table.addColumn column))
    (hcolumn : ColumnTree.Describes ⟨name, type, clauses⟩ column)
    (hnone : ∀ clause ∈ clauses, clause.name ≠ "reference") :
    ∀ reference ∈ table.references, reference.source ≠ column.name := by
  have hkey : column.foreignKey? = none := by
    rw [← Option.not_isSome_iff_eq_none, Column.foreignKey?_isSome_iff]
    rintro ⟨target, key, hmem⟩
    obtain ⟨_, _, declared, hattributes, hdeclared⟩ := hcolumn
    rw [hattributes] at hmem
    rcases List.mem_append.mp hmem with htype | hmem
    · cases type <;> simp [TypeTree.attributes] at htype
    · obtain ⟨clause, hclause, hdescribes⟩ := exists_left_of_mem hdeclared hmem
      exact hnone clause hclause hdescribes.name_eq.symm
  have hreferences : table.references = table.foreignKeys := by
    have hreferences : table.references = (table.addColumn column).foreignKeys :=
      hadmits.table.references
    rwa [Table.foreignKeys_addColumn, hkey, Option.toList_none, List.append_nil] at hreferences
  intro reference hmem hsource
  rw [hreferences] at hmem
  obtain ⟨other, hother, _, hname⟩ := Table.source_of_mem_foreignKeys hmem
  refine not_mem_map_of_nodup_concat hadmits.table.distinct ?_
  exact List.mem_map.mpr ⟨other, hother, hname.trans hsource⟩

/-- An action clause on a line without a reference clause is read up to its closing
parenthesis, and the fault is shown at its name. -/
theorem OnLine.fails_at_action {occasion : Occasion} {action : String}
    (h : self.OnLine opened ⟨name, type, clauses⟩) (hself : self.WellFormed)
    (hrule : ClauseRule tokens tree) (htree : tree.Describes (.action occasion action))
    (hnew : tree.name ∉ clauses.map ClauseTree.name)
    (hnone : ∀ clause ∈ clauses, clause.name ≠ "reference") :
    ∃ first middle right draft, tokens = first :: (middle ++ [right]) ∧
      first.label = ⟨.attributeName, tree.name⟩ ∧ Reads self (first :: middle) draft ∧
      draft.step right = .error ⟨.referenceRequired (.action occasion), first.position⟩ := by
  obtain ⟨table, column, _, hcolumn, hadmits, hresume⟩ := h.resume hself
  have hkind := htree.has_eq_false hcolumn hnew
  have hreferences := references_of_line hadmits hcolumn hnone
  cases hrule with
  | bare | empty =>
    -- An action takes an argument.
    cases htree.takes
  | @filled first left right tokens arguments hname hleft harguments hright =>
    obtain ⟨last, hreads⟩ := Reads.arguments harguments
    have hopen := hresume first _ (by simp [hname]) (.openClause hname)
    refine ⟨first, left :: tokens, right, _, rfl, Token.label_eq_iff.mpr ⟨hname, rfl⟩,
      .cons hopen (.cons (.openArguments hleft) hreads), ?_⟩
    have hattach : Clause.attach self.schema ⟨table, column, first, arguments⟩ =
        .error (.referenceRequired (.action occasion)) :=
      Clause.attach_of_no_reference htree hkind hreferences
    simp [step, atSeparator, hright, endArguments, closeClause, hattach, fail]

end Draft

/-- A column line in the middle of a source text, without its clauses. -/
structure LinePlace where
  before : List Item
  table : String
  columns : List ColumnTree
  name : String
  type : TypeTree
  later : List ColumnTree
  after : List Item

theorem BodyRule.append {tokens more : List Token} {columns others : List ColumnTree}
    (h : BodyRule tokens columns) (hmore : BodyRule more others) :
    BodyRule (tokens ++ more) (columns ++ others) := by
  induction hmore with
  | nil => simpa using h
  | blank _ heol ih =>
    rw [← List.append_assoc]
    exact ih.blank heol
  | column _ hlast ih =>
    rw [← List.append_assoc, ← List.append_assoc]
    exact ih.column hlast

namespace LinePlace

/-- The table with the clauses on the line. -/
def tree (self : LinePlace) (clauses : List ClauseTree) : TableTree :=
  ⟨self.table, self.columns ++ ⟨self.name, self.type, clauses⟩ :: self.later⟩

/-- The source text with the clauses on the line. -/
def items (self : LinePlace) (clauses : List ClauseTree) : List Item :=
  self.before ++ .table (self.tree clauses) :: self.after

/-- The tokens before the clauses. -/
inductive Opens (place : LinePlace) : List Token → Prop where
  | line {lines body : List Token} {word name eol first type : Token}
      (hlines : LinesRule lines place.before) (hword : word.kind = .tableWord)
      (hname : name.label = ⟨.identifier, place.table⟩) (heol : eol.kind = .eol)
      (hbody : BodyRule body place.columns) (hfirst : first.label = ⟨.identifier, place.name⟩)
      (htype : TypeRule type place.type) :
      Opens place (lines ++ ([word, name, eol] ++ (body ++ [first, type])))

/-- The tokens after the clauses. -/
inductive Closes (place : LinePlace) : List Token → Prop where
  | line {body rest : List Token} {eol last : Token} (heol : eol.kind = .eol)
      (hbody : BodyRule body place.later) (hlast : last.kind = .endWord)
      (hrest : SourceRule rest place.after) : Closes place (eol :: (body ++ last :: rest))

variable {self : LinePlace} {front middle back tokens : List Token} {clauses : List ClauseTree}

theorem source (hopens : self.Opens front) (hclauses : ClausesRule middle clauses)
    (hcloses : self.Closes back) : SourceRule (front ++ (middle ++ back)) (self.items clauses) := by
  obtain @⟨lines, body, word, name, eol, first, type, hlines, hword, hname, heol, hbody, hfirst,
    htype⟩ := hopens
  obtain @⟨body', rest, eol', last, heol', hbody', hlast, hrest⟩ := hcloses
  obtain ⟨hnamekind, hnameliteral⟩ := Token.label_eq_iff.mp hname
  obtain ⟨hfirstkind, hfirstliteral⟩ := Token.label_eq_iff.mp hfirst
  have hline := hbody.column (.column hfirstkind htype hclauses heol')
  have htable := TableRule.table hword hnamekind heol (hline.append hbody') hlast
  have hsource := (hlines.table htable).append_source hrest
  rw [hnameliteral, hfirstliteral] at hsource
  simpa [items, tree] using hsource

theorem Opens.relabel (h : self.Opens front)
    (hlabels : tokens.map Token.label = front.map Token.label) : self.Opens tokens := by
  obtain ⟨hlines, hword, hname, heol, hbody, hfirst, htype⟩ := h
  rw [List.map_append, List.map_eq_append_iff] at hlabels
  obtain ⟨lines', start, rfl, hlines', hstart⟩ := hlabels
  rw [List.map_append, List.map_eq_append_iff] at hstart
  obtain ⟨head, line, rfl, hhead, hline⟩ := hstart
  rw [List.map_append, List.map_eq_append_iff] at hline
  obtain ⟨body', line, rfl, hbody', hline⟩ := hline
  obtain ⟨word', head, rfl, hword', hhead⟩ := List.map_eq_cons_iff.mp hhead
  obtain ⟨name', head, rfl, hname', hhead⟩ := List.map_eq_cons_iff.mp hhead
  obtain ⟨eol', rfl, heol'⟩ := List.map_eq_singleton_iff.mp hhead
  obtain ⟨first', line, rfl, hfirst', hline⟩ := List.map_eq_cons_iff.mp hline
  obtain ⟨type', rfl, htype'⟩ := List.map_eq_singleton_iff.mp hline
  exact .line (hlines.relabel hlines') (Token.kind_of_label_eq hword' hword) (hname'.trans hname)
    (Token.kind_of_label_eq heol' heol) (hbody.relabel hbody') (hfirst'.trans hfirst)
    (htype.relabel htype')

theorem Closes.relabel (h : self.Closes back)
    (hlabels : tokens.map Token.label = back.map Token.label) : self.Closes tokens := by
  obtain ⟨heol, hbody, hlast, hrest⟩ := h
  obtain ⟨eol', later, rfl, heol', hlater⟩ := List.map_eq_cons_iff.mp hlabels
  rw [List.map_append, List.map_eq_append_iff] at hlater
  obtain ⟨body', later, rfl, hbody', hlater⟩ := hlater
  obtain ⟨last', rest', rfl, hlast', hrest'⟩ := List.map_eq_cons_iff.mp hlater
  exact .line (Token.kind_of_label_eq heol' heol) (hbody.relabel hbody')
    (Token.kind_of_label_eq hlast' hlast) (hrest.relabel hrest')

@[simp]
theorem tables_items :
    Item.tables (self.items clauses) =
      Item.tables self.before ++ self.tree clauses :: Item.tables self.after := by
  simp [items, Item.tables]

theorem admissible_tree (h : Item.Admissible (self.items clauses)) :
    (self.tree clauses).Admissible (Item.tables self.before) :=
  h.tables _ _ _ tables_items

theorem admissible_line (h : Item.Admissible (self.items clauses)) :
    ColumnTree.Admissible (Item.tables self.before) ⟨self.name, self.type, clauses⟩ :=
  (admissible_tree h).columns _ (by simp [tree])

/-- Items that meet the side conditions are read up to the clauses of the line. -/
theorem Opens.reads (h : self.Opens tokens) (hspelled : ∀ token ∈ tokens, token.Spelled)
    (hadmissible : Item.Admissible (self.items clauses)) :
    ∃ draft, Draft.Reads .initial tokens draft ∧
      List.Forall₂ TableTree.Describes (Item.tables self.before) draft.schema.tables ∧
      draft.OnLine ⟨self.table, self.columns⟩ ⟨self.name, self.type, []⟩ := by
  obtain @⟨lines, body, word, name, eol, first, type, hlines, hword, hname, heol, hbody, hfirst,
    htype⟩ := h
  obtain ⟨hnamekind, hnameliteral⟩ := Token.label_eq_iff.mp hname
  obtain ⟨hfirstkind, hfirstliteral⟩ := Token.label_eq_iff.mp hfirst
  simp only [List.forall_mem_append] at hspelled
  obtain ⟨hlinesspelled, hheadspelled, hbodyspelled, _⟩ := hspelled
  have htree := admissible_tree hadmissible
  have hbefore : Item.Admissible self.before := hadmissible.of_append
  obtain ⟨schema, log, hreads, hdescribes⟩ := Draft.Reads.lines hlines hlinesspelled hbefore
  have hnew : schema.table? name.literal = none := by
    have hdistinct := hadmissible.distinct
    rw [tables_items, List.map_append, List.map_cons, List.nodup_append] at hdistinct
    rw [Schema.table?_eq_none_iff, ← hdescribes.table_names, hnameliteral]
    exact fun hmem => hdistinct.2.2 _ hmem _ List.mem_cons_self rfl
  have hhead : Draft.Reads ⟨schema, log, .top⟩ [word, name, eol]
      ⟨schema, log, .body (.empty self.table)⟩ := by
    rw [← show name.literal = self.table from hnameliteral]
    exact .cons (.openTable hword) (.cons (.nameTable hnamekind hnew) (.single (.openBody heol)))
  have hwell := hreads.wellFormed Draft.initial_wellFormed hlinesspelled
  obtain ⟨log', table, hbodyreads, htable⟩ := Draft.Reads.body
    (hhead.wellFormed hwell hheadspelled) hdescribes.tables hbody hbodyspelled htree.of_append
  have hcolumn : first.literal ∉ self.columns.map ColumnTree.name := by
    have hdistinct := htree.distinct
    rw [tree, List.map_append, List.map_cons, List.nodup_append] at hdistinct
    rw [hfirstliteral]
    exact fun hmem => hdistinct.2.2 _ hmem _ List.mem_cons_self rfl
  obtain ⟨draft, hstart, rfl, hline⟩ :=
    Draft.Reads.lineStart schema log' hfirstkind hcolumn htype htable
  rw [hfirstliteral] at hline
  exact ⟨draft, hreads.append (hhead.append (hbodyreads.append hstart)), hdescribes.tables, hline⟩

variable {order earlier later : List ClauseTree} {clause : ClauseTree}

theorem items_reorders (h : Item.Admissible (self.items clauses)) (hperm : order.Perm clauses)
    (hactions : EachAfter ClauseTree.AfterReference order) :
    List.Forall₂ Item.Reorders (self.items order) (self.items clauses) := by
  have hself := h.reorders_self
  rw [items, List.forall_mem_append, List.forall_mem_cons] at hself
  obtain ⟨hbefore, htree, hafter⟩ := hself
  cases htree with
  | table htree =>
    have hcolumns := htree.columns
    simp only [tree, List.forall₂_same, List.forall_mem_append, List.forall_mem_cons] at hcolumns
    have hline : ColumnTree.Reorders ⟨self.name, self.type, order⟩
        ⟨self.name, self.type, clauses⟩ :=
      ⟨rfl, rfl, hperm, hactions⟩
    have hlines := List.rel_append (List.forall₂_same.mpr hcolumns.1)
      (.cons hline (List.forall₂_same.mpr hcolumns.2.2))
    exact List.rel_append (List.forall₂_same.mpr hbefore)
      (.cons (.table ⟨rfl, hlines⟩) (List.forall₂_same.mpr hafter))

/-- A line whose first action comes before its reference is read up to that action. -/
theorem run_fails_at_action {last : List Token} (rest : List Token) (hopens : self.Opens front)
    (hearlier : ClausesRule middle earlier) (hlast : ClauseRule last clause)
    (hspelled : ∀ token ∈ front ++ middle, token.Spelled)
    (hadmissible : Item.Admissible (self.items clauses))
    (hperm : (earlier ++ clause :: later).Perm clauses)
    (hfree : ∀ other ∈ earlier, other.name ∉ ["reference", "onDelete", "onUpdate"])
    (hclause : clause.name = "onDelete" ∨ clause.name = "onUpdate") :
    ∃ first more occasion, last = first :: more ∧
      first.label = ⟨.attributeName, (Attribute.Kind.action occasion).name⟩ ∧
      clause.name = (Attribute.Kind.action occasion).name ∧
      (Draft.initial.run (front ++ (middle ++ (last ++ rest)))).outcome =
        .error ⟨.referenceRequired (.action occasion), first.position⟩ := by
  obtain ⟨hclauses, hdistinct, _⟩ := admissible_line hadmissible
  have hdistinct : ((earlier ++ clause :: later).map ClauseTree.name).Nodup :=
    ((hperm.map ClauseTree.name).nodup_iff).mpr hdistinct
  rw [List.map_append, List.map_cons, List.nodup_append] at hdistinct
  obtain ⟨declared, hdeclared, _⟩ := hclauses clause (hperm.mem_iff.mp (by simp))
  obtain ⟨occasion, action, rfl⟩ := ClauseTree.Describes.eq_action hdeclared hclause
  have hline : ColumnTree.Admissible (Item.tables self.before) ⟨self.name, self.type, earlier⟩ := by
    refine ⟨fun other hother => hclauses other (hperm.mem_iff.mp (by simp [hother])),
      hdistinct.1, ?_⟩
    rintro before other after rfl hother
    have hnone := hfree other (by simp)
    rcases hother with hother | hother <;> simp [hother] at hnone
  rw [List.forall_mem_append] at hspelled
  obtain ⟨start, hstart, htables, honline⟩ := hopens.reads hspelled.1 hadmissible
  have hstartwell := hstart.wellFormed Draft.initial_wellFormed hspelled.1
  obtain ⟨draft, hreads, hschema, honline⟩ :=
    honline.reads_clauses hstartwell htables hearlier hspelled.2 hline
  obtain ⟨first, more, right, failing, rfl, hfirst, hmore, hfails⟩ := honline.fails_at_action
    (hreads.wellFormed hstartwell hspelled.2) hlast hdeclared
    (fun hmem => hdistinct.2.2 _ hmem _ List.mem_cons_self rfl)
    (fun other hother hname => hfree other hother (by simp [hname]))
  refine ⟨first, more ++ [right], occasion, rfl, ?_, hdeclared.name_eq.symm, ?_⟩
  · rw [hfirst, ← hdeclared.name_eq]
    rfl
  · refine Draft.run_outcome_eq_error_iff.mpr
      ⟨front ++ (middle ++ (first :: more)), right, rest, failing, by simp,
        hstart.append (hreads.append hmore), hfails⟩

end LinePlace

end SchemaScript
