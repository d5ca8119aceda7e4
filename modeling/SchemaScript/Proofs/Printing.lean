import Mathlib
import SchemaScript.Compile
import SchemaScript.Proofs.Acceptance
import SchemaScript.Proofs.Writing

namespace SchemaScript

namespace Label

/-- The end of a line. -/
def eol : Label := ⟨.eol, ""⟩

/-- The comma between arguments. -/
def comma : Label := ⟨.comma, ","⟩

/-- The parenthesis that opens the arguments of a clause. -/
def leftParen : Label := ⟨.leftParen, "("⟩

/-- The parenthesis that closes the arguments of a clause. -/
def rightParen : Label := ⟨.rightParen, ")"⟩

/-- A name. -/
def identifier (name : String) : Label := ⟨.identifier, name⟩

end Label

/-- The token of an argument. -/
def Argument.label : Argument → Label
  | .text value => ⟨.string, value⟩
  | .raw value => ⟨.raw, value⟩

/-- The tokens of a printed clause. There are parentheses only where there are arguments. -/
def ClauseTree.labels (self : ClauseTree) : List Label :=
  match self.arguments with
  | [] => [⟨.attributeName, self.name⟩]
  | first :: rest => ⟨.attributeName, self.name⟩ :: .leftParen ::
      (first.label :: rest.flatMap fun argument => [.comma, argument.label]) ++ [.rightParen]

/-- The token of a type. -/
def TypeTree.label : TypeTree → Label
  | .named name => .identifier name
  | .raw literal => ⟨.raw, literal⟩

/-- The tokens of a printed column line. -/
def ColumnTree.labels (self : ColumnTree) : List Label :=
  .identifier self.name :: self.type.label :: self.clauses.flatMap ClauseTree.labels ++ [.eol]

/-- The tokens of a printed table, which has no blank lines. -/
def TableTree.labels (self : TableTree) : List Label :=
  ⟨.tableWord, "table"⟩ :: .identifier self.name :: .eol ::
    self.columns.flatMap ColumnTree.labels ++ [⟨.endWord, "end"⟩]

/-- The tokens of a printed item, which ends its line. -/
def Item.labels : Item → List Label
  | .table tree => tree.labels ++ [.eol]
  | .setting key value => [⟨.setWord, "set"⟩, .identifier key, ⟨.string, value⟩, .eol]

section Rules

variable {tokens : List Token}

theorem Token.argument?_of_label {token : Token} {argument : Argument}
    (h : token.label = argument.label) : token.argument? = some argument := by
  obtain ⟨hkind, hliteral⟩ := Token.label_eq_iff.mp h
  cases argument <;> simp_all [Token.argument?, Argument.label]

theorem ArgumentsRule.of_labels {first : Argument} {rest : List Argument}
    (h : tokens.map Token.label =
      first.label :: rest.flatMap fun argument => [.comma, argument.label]) :
    ArgumentsRule tokens (first :: rest) := by
  -- The rules for repetitions grow at the end, so the last part is taken off first.
  induction rest using List.reverseRecOn generalizing tokens with
  | nil =>
    obtain ⟨token, rfl, htoken⟩ := List.map_eq_singleton_iff.mp h
    exact .one (Token.argument?_of_label htoken)
  | append_singleton rest last ih =>
    rw [List.flatMap_append, ← List.cons_append, List.map_eq_append_iff] at h
    obtain ⟨before, later, rfl, hbefore, hlater⟩ := h
    obtain ⟨comma, later, rfl, hcomma, hlater⟩ := List.map_eq_cons_iff.mp hlater
    obtain ⟨token, rfl, htoken⟩ := List.map_eq_singleton_iff.mp hlater
    exact .more (ih hbefore) (Token.label_eq_iff.mp hcomma).1 (Token.argument?_of_label htoken)

theorem ClauseRule.of_labels {tree : ClauseTree} (h : tokens.map Token.label = tree.labels) :
    ClauseRule tokens tree := by
  obtain ⟨name, arguments⟩ := tree
  cases arguments with
  | nil =>
    obtain ⟨token, rfl, htoken⟩ := List.map_eq_singleton_iff.mp h
    obtain ⟨hkind, rfl⟩ := Token.label_eq_iff.mp htoken
    exact .bare hkind
  | cons first rest =>
    obtain ⟨start, last, rfl, hstart, hlast⟩ := List.map_eq_append_iff.mp h
    obtain ⟨token, start, rfl, htoken, hstart⟩ := List.map_eq_cons_iff.mp hstart
    obtain ⟨left, given, rfl, hleft, hgiven⟩ := List.map_eq_cons_iff.mp hstart
    obtain ⟨right, rfl, hright⟩ := List.map_eq_singleton_iff.mp hlast
    obtain ⟨hkind, rfl⟩ := Token.label_eq_iff.mp htoken
    exact .filled hkind (Token.label_eq_iff.mp hleft).1 (.of_labels hgiven)
      (Token.label_eq_iff.mp hright).1

theorem ClausesRule.of_labels {clauses : List ClauseTree}
    (h : tokens.map Token.label = clauses.flatMap ClauseTree.labels) :
    ClausesRule tokens clauses := by
  induction clauses using List.reverseRecOn generalizing tokens with
  | nil =>
    obtain rfl := List.map_eq_nil_iff.mp h
    exact .nil
  | append_singleton clauses last ih =>
    rw [List.flatMap_append, List.flatMap_singleton, List.map_eq_append_iff] at h
    obtain ⟨before, later, rfl, hbefore, hlater⟩ := h
    exact .clause (ih hbefore) (.of_labels hlater)

theorem TypeRule.of_label {token : Token} {tree : TypeTree} (h : token.label = tree.label) :
    TypeRule token tree := by
  obtain ⟨hkind, hliteral⟩ := Token.label_eq_iff.mp h
  cases tree with
  | named name =>
    obtain rfl : token.literal = name := hliteral
    exact .named hkind
  | raw literal =>
    obtain rfl : token.literal = literal := hliteral
    exact .raw hkind

theorem ColumnRule.of_labels {tree : ColumnTree} (h : tokens.map Token.label = tree.labels) :
    ColumnRule tokens tree := by
  obtain ⟨name, type, clauses⟩ := tree
  obtain ⟨start, last, rfl, hstart, hlast⟩ := List.map_eq_append_iff.mp h
  obtain ⟨token, start, rfl, htoken, hstart⟩ := List.map_eq_cons_iff.mp hstart
  obtain ⟨typetoken, start, rfl, htype, hclauses⟩ := List.map_eq_cons_iff.mp hstart
  obtain ⟨eol, rfl, heol⟩ := List.map_eq_singleton_iff.mp hlast
  obtain ⟨hkind, rfl⟩ := Token.label_eq_iff.mp htoken
  exact .column hkind (.of_label htype) (.of_labels hclauses) (Token.label_eq_iff.mp heol).1

theorem BodyRule.of_labels {columns : List ColumnTree}
    (h : tokens.map Token.label = columns.flatMap ColumnTree.labels) :
    BodyRule tokens columns := by
  induction columns using List.reverseRecOn generalizing tokens with
  | nil =>
    obtain rfl := List.map_eq_nil_iff.mp h
    exact .nil
  | append_singleton columns last ih =>
    rw [List.flatMap_append, List.flatMap_singleton, List.map_eq_append_iff] at h
    obtain ⟨before, later, rfl, hbefore, hlater⟩ := h
    exact .column (ih hbefore) (.of_labels hlater)

theorem TableRule.of_labels {tree : TableTree} (h : tokens.map Token.label = tree.labels) :
    TableRule tokens tree := by
  obtain ⟨name, columns⟩ := tree
  obtain ⟨start, last, rfl, hstart, hlast⟩ := List.map_eq_append_iff.mp h
  obtain ⟨word, start, rfl, hword, hstart⟩ := List.map_eq_cons_iff.mp hstart
  obtain ⟨token, start, rfl, htoken, hstart⟩ := List.map_eq_cons_iff.mp hstart
  obtain ⟨eol, body, rfl, heol, hbody⟩ := List.map_eq_cons_iff.mp hstart
  obtain ⟨endtoken, rfl, hend⟩ := List.map_eq_singleton_iff.mp hlast
  obtain ⟨hkind, rfl⟩ := Token.label_eq_iff.mp htoken
  exact .table (Token.label_eq_iff.mp hword).1 hkind (Token.label_eq_iff.mp heol).1
    (.of_labels hbody) (Token.label_eq_iff.mp hend).1

/-- Tokens that are labelled like some items derive the items. -/
theorem LinesRule.of_labels {items : List Item}
    (h : tokens.map Token.label = items.flatMap Item.labels) : LinesRule tokens items := by
  induction items using List.reverseRecOn generalizing tokens with
  | nil =>
    obtain rfl := List.map_eq_nil_iff.mp h
    exact .nil
  | append_singleton items last ih =>
    rw [List.flatMap_append, List.flatMap_singleton, List.map_eq_append_iff] at h
    obtain ⟨before, later, rfl, hbefore, hlater⟩ := h
    cases last with
    | table tree =>
      obtain ⟨table, last, rfl, htable, hlast⟩ := List.map_eq_append_iff.mp hlater
      obtain ⟨eol, rfl, heol⟩ := List.map_eq_singleton_iff.mp hlast
      have hlines := ((ih hbefore).table (.of_labels htable)).blank (Token.label_eq_iff.mp heol).1
      rwa [List.append_assoc] at hlines
    | setting key value =>
      obtain ⟨word, later, rfl, hword, hlater⟩ := List.map_eq_cons_iff.mp hlater
      obtain ⟨name, later, rfl, hname, hlater⟩ := List.map_eq_cons_iff.mp hlater
      obtain ⟨given, later, rfl, hgiven, hlater⟩ := List.map_eq_cons_iff.mp hlater
      obtain ⟨eol, rfl, heol⟩ := List.map_eq_singleton_iff.mp hlater
      obtain ⟨hkind, rfl⟩ := Token.label_eq_iff.mp hname
      obtain ⟨hstring, rfl⟩ := Token.label_eq_iff.mp hgiven
      have hsetting := SettingRule.setting (Token.label_eq_iff.mp hword).1 hkind (.inr hstring)
      exact (ih hbefore).setting hsetting (Token.label_eq_iff.mp heol).1

end Rules

/-- The arguments that an attribute is written with. -/
def Attribute.arguments : Attribute → List Argument
  | .defaultValue value => [value]
  | .reference table column => [.text table, .text column]
  | .action _ name => [.text name]
  | .rawType literal => [.raw literal]
  | _ => []

/-- The clause that declares an attribute. -/
def Attribute.tree (self : Attribute) : ClauseTree := ⟨self.kind.name, self.arguments⟩

namespace Column

/-- What is written in the place of the type. -/
def typeTree (self : Column) : TypeTree :=
  match self.type with
  | .named name => .named name
  | .raw => .raw ((self.attributes.findSome? Attribute.rawType?).getD "")

/-- The attributes that are written as clauses. -/
def declared (self : Column) : List Attribute :=
  self.attributes.filter (·.kind ≠ .rawType)

/-- The line that declares a column. -/
def tree (self : Column) : ColumnTree :=
  ⟨self.name, self.typeTree, self.declared.map Attribute.tree⟩

end Column

/-- The declaration of a table, with its columns in their order. -/
def Table.tree (self : Table) : TableTree := ⟨self.name, self.columns.map Column.tree⟩

namespace Schema

/-- The items that declare a schema: the settings in the order of their keys, then the
tables in their order. -/
def items (self : Schema) : List Item :=
  self.configuration.entries.map (fun entry => .setting entry.1 entry.2) ++
    self.tables.map fun table => .table table.tree

/-- A source text of a schema: a line for each setting, then the tables. -/
def print (self : Schema) : String := String.ofList (Label.write (self.items.flatMap Item.labels))

end Schema

section Description

theorem Attribute.WellFormed.tree_describes {earlier : List Table} {self : Attribute}
    (h : self.WellFormed earlier) (hkind : self.kind ≠ .rawType) : self.tree.Describes self := by
  refine Attribute.Declared.of_takes ?_
  cases self with
  | primaryKey | autoIncrement | nullable | defaultValue | reference => constructor
  | action occasion name =>
    obtain ⟨action, _, rfl⟩ := List.mem_map.mp h
    refine .action ?_
    cases action <;> decide
  | rawType => exact absurd rfl hkind

namespace Column

variable {earlier : List Table} {self : Column}

/-- A raw type is the first attribute, and the others are written as clauses. -/
theorem Typed.attributes_eq (h : self.Typed) :
    self.attributes = self.typeTree.attributes ++ self.declared := by
  unfold Typed at h
  split at h
  next name htype =>
    have hdeclared : self.declared = self.attributes := by
      rw [declared, List.filter_eq_self]
      simpa using h.2
    simp [typeTree, htype, TypeTree.attributes, hdeclared]
  next htype =>
    obtain ⟨literal, rest, hattributes, hrest⟩ := h
    have hdeclared : self.declared = rest := by
      rw [declared, hattributes, List.filter_cons_of_neg (by simp [Attribute.kind]),
        List.filter_eq_self]
      simpa using hrest
    simp [typeTree, htype, TypeTree.attributes, hdeclared, hattributes, List.findSome?_cons,
      Attribute.rawType?]

theorem WellFormed.tree_describes (h : self.WellFormed earlier) : self.tree.Describes self where
  name := rfl
  type := by
    unfold tree typeTree
    cases self.type <;> rfl
  attributes := by
    refine ⟨self.declared, h.typed.attributes_eq, ?_⟩
    rw [tree, List.forall₂_map_left_iff, List.forall₂_same]
    intro attached hmem
    obtain ⟨hmem, hkind⟩ := List.mem_filter.mp hmem
    exact (h.attributes attached hmem).tree_describes (by simpa using hkind)

end Column

theorem Table.WellFormed.tree_describes {earlier : List Table} {self : Table}
    (h : self.WellFormed earlier) : self.tree.Describes self where
  name := rfl
  columns := by
    rw [tree, List.forall₂_map_left_iff, List.forall₂_same]
    exact fun column hcolumn => (h.columns column hcolumn).tree_describes

namespace Configuration

variable {settings : List (String × String)}

theorem mem_ofSettings_iff (hdistinct : (settings.map Prod.fst).Nodup) {entry : String × String} :
    entry ∈ (ofSettings settings).entries ↔
      entry ∈ settings ∨ entry ∈ initial.entries ∧ entry.1 ∉ settings.map Prod.fst := by
  induction settings using List.reverseRecOn with
  | nil => simp [ofSettings]
  | append_singleton settings last ih =>
    have hlast := not_mem_map_of_nodup_concat hdistinct
    rw [List.map_append] at hdistinct
    have hne (hmem : entry ∈ settings) : entry.1 ≠ last.1 := by
      intro hkey
      exact hlast (hkey ▸ List.mem_map_of_mem hmem)
    obtain ⟨key, value⟩ := last
    rw [ofSettings_concat, mem_insert_iff, ih hdistinct.of_append_left]
    simp only [List.mem_append, List.mem_singleton, List.map_append, List.map_singleton]
    tauto

/-- Setting every entry of a configuration gives the configuration, since it has
a provider of its own. -/
theorem WellFormed.ofSettings_entries {self : Configuration} (h : self.WellFormed) :
    ofSettings self.entries = self := by
  apply eq_of_mem_iff
  intro entry
  rw [mem_ofSettings_iff self.keys_nodup]
  refine ⟨?_, .inl⟩
  rintro (hmem | ⟨hinitial, hnew⟩)
  · exact hmem
  -- The default provider is gone, since the configuration sets one.
  · obtain ⟨value, hvalue⟩ := h.provider
    rw [List.mem_singleton.mp hinitial] at hnew
    exact absurd (List.mem_map_of_mem hvalue) hnew

end Configuration

theorem Schema.WellFormed.items_describe {self : Schema} (h : self.WellFormed) :
    Item.Describes self.items self where
  configuration := by
    have hsettings : Item.settings self.items = self.configuration.entries := by
      simp [Item.settings, items, List.filterMap_append, List.filterMap_map]
    rw [hsettings, h.configuration.ofSettings_entries]
  tables := by
    have htables : Item.tables self.items = self.tables.map Table.tree := by
      simp [Item.tables, items, List.filterMap_append, List.filterMap_map]
    rw [htables, List.forall₂_map_left_iff, List.forall₂_same]
    intro table htable
    obtain ⟨earlier, _, hwell⟩ := h.tables.of_mem htable
    exact hwell.tree_describes

end Description

section Writability

/-- Tokens of a legal kind can be written with every literal that fits. -/
theorem Label.writable_of_spells {kind : Token.Kind} {literal : String}
    (hspells : kind.Spells literal) (hkind : kind ≠ .eof ∧ kind ≠ .illegal) :
    Writable ⟨kind, literal⟩ :=
  ⟨hspells, hkind.1, fun hillegal => absurd hillegal hkind.2⟩

theorem Label.eol_writable : eol.Writable := writable_of_spells rfl (by simp)

theorem Label.identifier_writable {name : String} (h : isName name) : (identifier name).Writable :=
  writable_of_spells h (by simp)

theorem Argument.Quotable.label_writable {self : Argument} (h : self.Quotable) :
    self.label.Writable := by
  cases self <;> exact Label.writable_of_spells h (by simp)

theorem ClauseTree.labels_writable {self : ClauseTree} (hname : isWord self.name)
    (harguments : ∀ argument ∈ self.arguments, argument.Quotable) :
    ∀ label ∈ self.labels, label.Writable := by
  have hmarker : Label.Writable ⟨.attributeName, self.name⟩ :=
    Label.writable_of_spells hname (by simp)
  unfold labels
  split
  next => simpa using hmarker
  next first rest hsplit =>
    rw [hsplit, List.forall_mem_cons] at harguments
    simp only [List.cons_append, List.forall_mem_cons, List.forall_mem_append,
      List.forall_mem_flatMap, List.not_mem_nil, false_implies, implies_true, and_true]
    exact ⟨hmarker, Label.writable_of_spells rfl (by simp), harguments.1.label_writable,
      fun argument hmem => ⟨Label.writable_of_spells rfl (by simp),
        (harguments.2 argument hmem).label_writable⟩,
      Label.writable_of_spells rfl (by simp)⟩

theorem ColumnTree.labels_writable {self : ColumnTree} (hname : isName self.name)
    (htype : self.type.label.Writable)
    (hclauses : ∀ clause ∈ self.clauses, ∀ label ∈ clause.labels, label.Writable) :
    ∀ label ∈ self.labels, label.Writable := by
  simp only [labels, List.cons_append, List.forall_mem_cons, List.forall_mem_append,
    List.forall_mem_flatMap, List.not_mem_nil, false_implies, implies_true, and_true]
  exact ⟨Label.identifier_writable hname, htype, hclauses, Label.eol_writable⟩

theorem TableTree.labels_writable {self : TableTree} (hname : isName self.name)
    (hcolumns : ∀ column ∈ self.columns, ∀ label ∈ column.labels, label.Writable) :
    ∀ label ∈ self.labels, label.Writable := by
  simp only [labels, List.cons_append, List.forall_mem_cons, List.forall_mem_append,
    List.forall_mem_flatMap, List.not_mem_nil, false_implies, implies_true, and_true]
  exact ⟨Label.writable_of_spells rfl (by simp), Label.identifier_writable hname,
    Label.eol_writable, hcolumns, Label.writable_of_spells rfl (by simp)⟩

/-- The table and its columns have names. -/
def Table.Named (self : Table) : Prop :=
  isName self.name ∧ ∀ column ∈ self.columns, isName column.name

/-- The names in references can be quoted, since they are names of tables and of
columns. -/
theorem Attribute.WellFormed.arguments_quotable {earlier : List Table} {self : Attribute}
    (h : self.WellFormed earlier)
    (hearlier : ∀ table ∈ earlier, table.Named) :
    ∀ argument ∈ self.arguments, argument.Quotable := by
  cases self with
  | primaryKey | autoIncrement | nullable => simp [arguments]
  | defaultValue value => simpa [arguments, WellFormed] using h
  | reference target key =>
    obtain ⟨table, htable, rfl, hkey⟩ := h
    obtain ⟨hname, hcolumns⟩ := hearlier table htable
    obtain ⟨column, hcolumn, rfl⟩ := List.mem_map.mp hkey
    simp only [arguments, List.forall_mem_cons, List.not_mem_nil, false_implies, implies_true,
      and_true]
    exact ⟨quote_not_mem_of_isName hname,
      quote_not_mem_of_isName (hcolumns column hcolumn)⟩
  | action occasion name =>
    obtain ⟨action, _, rfl⟩ := List.mem_map.mp h
    rw [arguments, List.forall_mem_singleton]
    show '"' ∉ action.name.toList
    cases action <;> decide
  | rawType literal => simpa [arguments, WellFormed, Argument.Quotable] using h

theorem Attribute.Kind.name_isWord (self : Attribute.Kind) : isWord self.name := by
  match self with
  | .primaryKey | .autoIncrement | .nullable | .defaultValue | .reference | .rawType => decide
  | .action .delete | .action .update => decide

theorem Column.WellFormed.typeTree_writable {earlier : List Table} {self : Column}
    (h : self.WellFormed earlier) : self.typeTree.label.Writable := by
  have htyped := h.typed
  unfold Typed at htyped
  unfold typeTree
  cases htype : self.type with
  | named name =>
    rw [htype] at htyped
    exact Label.identifier_writable htyped.1
  | raw =>
    rw [htype] at htyped
    obtain ⟨literal, rest, hattributes, _⟩ := htyped
    have hliteral := h.attributes (.rawType literal) (by simp [hattributes])
    have hfound : self.attributes.findSome? Attribute.rawType? = some literal := by
      simp [hattributes, List.findSome?_cons, Attribute.rawType?]
    rw [hfound]
    exact Label.writable_of_spells hliteral (by simp)

theorem Column.WellFormed.labels_writable {earlier : List Table} {self : Column}
    (h : self.WellFormed earlier)
    (hearlier : ∀ table ∈ earlier, table.Named) :
    ∀ label ∈ self.tree.labels, label.Writable := by
  refine ColumnTree.labels_writable h.name h.typeTree_writable ?_
  intro clause hclause
  obtain ⟨attached, hmem, rfl⟩ := List.mem_map.mp hclause
  exact ClauseTree.labels_writable attached.kind.name_isWord
    ((h.attributes attached (List.mem_of_mem_filter hmem)).arguments_quotable hearlier)

namespace Schema.WellFormed

variable {self : Schema}

theorem named (h : self.WellFormed) : ∀ table ∈ self.tables, table.Named := by
  intro table htable
  obtain ⟨earlier, _, hwell⟩ := h.tables.of_mem htable
  exact ⟨hwell.name, fun column hcolumn => (hwell.columns column hcolumn).name⟩

theorem labels_writable (h : self.WellFormed) :
    ∀ label ∈ self.items.flatMap Item.labels, label.Writable := by
  rw [List.forall_mem_flatMap]
  intro item hitem
  rcases List.mem_append.mp hitem with hsetting | hitem
  · obtain ⟨entry, hentry, rfl⟩ := List.mem_map.mp hsetting
    obtain ⟨hkey, hvalue⟩ := h.configuration.entries entry hentry
    have hname : ∀ key ∈ Configuration.keys, isName key := by decide
    simp only [Item.labels, List.forall_mem_cons, List.not_mem_nil, false_implies, implies_true,
      and_true]
    exact ⟨Label.writable_of_spells rfl (by simp), Label.identifier_writable (hname _ hkey),
      Label.writable_of_spells hvalue (by simp), Label.eol_writable⟩
  · obtain ⟨table, htable, rfl⟩ := List.mem_map.mp hitem
    obtain ⟨earlier, hsubset, hwell⟩ := h.tables.of_mem htable
    rw [Item.labels, List.forall_mem_append]
    refine ⟨TableTree.labels_writable hwell.name ?_, by simpa using Label.eol_writable⟩
    intro tree htree
    obtain ⟨column, hcolumn, rfl⟩ := List.mem_map.mp htree
    exact (hwell.columns column hcolumn).labels_writable
      fun other hother => h.named other (hsubset hother)

/-- Reading a printed schema gives the schema back. -/
theorem parse_print (h : self.WellFormed) : (parse self.print).outcome = .ok self := by
  have hwritten : Written self.print.toList (self.items.flatMap Item.labels) := by
    rw [print, String.toList_ofList]
    exact Label.written_write h.labels_writable
  have hdescribes := h.items_describe
  obtain ⟨schema, hparse, hschema⟩ := exists_parse_of_derivation
    (.lines (.of_labels (Script.ofText_labels hwritten))) (hdescribes.admissible h)
  rw [hparse, hschema.unique hdescribes (parse_wellFormed hparse) h]

end Schema.WellFormed

end Writability

theorem compile_outcome_of_parse {source : String} {schema : Schema}
    (h : (Schema.parse source).outcome = .ok schema) :
    (compile source).outcome = schema.generate.outcome.mapError .generation := by
  simp [compile, Report.bind, Report.mapError, h, Except.mapError]

/-- Printing and reading are inverse to each other on well-formed schemas, and every
schema that is read is well formed. So printing what was read gives a text that
is read and compiled alike. -/
theorem Schema.parse_print_eq_ok :
    (∀ schema : Schema, schema.WellFormed → (parse schema.print).outcome = .ok schema) ∧
    ∀ (source : String) (schema : Schema), (parse source).outcome = .ok schema →
      schema.WellFormed ∧ (parse schema.print).outcome = .ok schema ∧
        (compile schema.print).outcome = (compile source).outcome := by
  refine ⟨fun schema h => h.parse_print, ?_⟩
  intro source schema hparse
  have hwell := parse_wellFormed hparse
  have hprint := hwell.parse_print
  refine ⟨hwell, hprint, ?_⟩
  rw [compile_outcome_of_parse hprint, compile_outcome_of_parse hparse]

/-- Line breaks in literals, the other kind of quotes, letters in either case and the
layout of the text are no hindrance. -/
theorem Schema.parse_print_eq_ok_with_literals :
    ∃ schema, (parse ("set url \"\"\n\ntable a\n x int @id()\nend table b\n y `CHAR(\"2\")`" ++
        " @default(\"\n`\") @reference(\"a\",\"x\") @onDelete(\"set null\")\nend")).outcome =
        .ok schema ∧
      schema.print = "set provider \"sqlite\"\nset url \"\"\ntable a\nx int @id\nend\n" ++
        "table b\ny `CHAR(\"2\")` @default(\"\n`\") @reference(\"a\", \"x\")" ++
        " @onDelete(\"SET NULL\")\nend\n" ∧
      schema.WellFormed ∧ (parse schema.print).outcome = .ok schema := by
  have hparse : (parse ("set url \"\"\n\ntable a\n x int @id()\nend table b\n y `CHAR(\"2\")`" ++
      " @default(\"\n`\") @reference(\"a\",\"x\") @onDelete(\"set null\")\nend")).outcome =
      .ok ⟨.insert .initial "url" "", [⟨"a", [⟨"x", .named "int", [.primaryKey]⟩], []⟩,
        ⟨"b", [⟨"y", .raw, [.rawType "CHAR(\"2\")", .defaultValue (.text "\n`"),
          .reference "a" "x", .action .delete "SET NULL"]⟩],
          [⟨"y", "a", "x", some "SET NULL", none⟩]⟩]⟩ := by
    cbv
  have hwell := (parse_print_eq_ok.2 _ _ hparse).1
  exact ⟨_, hparse, by cbv, hwell, parse_print_eq_ok.1 _ hwell⟩

/-- The type is raw exactly when the first attribute is the only raw type of the column.
Unlike `Typed`, this lets a column with a named type have a raw type behind its first
attribute. -/
def Column.LooselyTyped (self : Column) : Prop :=
  self.type = .raw ↔ ∃ literal rest, self.attributes = .rawType literal :: rest ∧
    ∀ attached ∈ rest, attached.kind ≠ .rawType

/-- A schema that is well formed but for `Typed`, of which it meets only the loose form.
No source text declares it, so there is no way to print it. -/
theorem Schema.parse_print_ne_of_looselyTyped :
    ∃ (column : Column) (table : Table) (schema : Schema),
      column = ⟨"x", .named "int", [.primaryKey, .rawType "y"]⟩ ∧ table = ⟨"a", [column], []⟩ ∧
      schema = ⟨.initial, [table]⟩ ∧ schema.configuration.WellFormed ∧
      (schema.tables.map Table.name).Nodup ∧ isName table.name ∧
      (table.columns.map Column.name).Nodup ∧ table.references = table.foreignKeys ∧
      isName column.name ∧ isName "int" ∧ column.LooselyTyped ∧
      (column.attributes.map Attribute.kind).Nodup ∧
      (∀ attached ∈ column.attributes, attached.WellFormed []) ∧
      EachAfter Attribute.AfterReference column.attributes ∧
      ∀ print : Schema → String, (parse (print schema)).outcome ≠ .ok schema := by
  refine ⟨_, _, _, rfl, rfl, rfl, Configuration.initial_wellFormed, by decide, by decide, by decide,
    by decide, by decide, by decide, ?_, by decide, ?_, ?_, ?_⟩
  · constructor
    · rintro ⟨⟩
    · rintro ⟨literal, rest, hattributes, _⟩
      cases hattributes
  · simp [Attribute.WellFormed]
  · refine (EachAfter.nil.concat ?_).concat ?_
    · simp [Attribute.AfterReference]
    · simp [Attribute.AfterReference]
  · intro print hparse
    obtain ⟨earlier, _, htable⟩ := (parse_wellFormed hparse).tables.of_mem List.mem_cons_self
    have htyped := (htable.columns _ List.mem_cons_self).typed
    exact htyped.2 (.rawType "y") (by simp) rfl

end SchemaScript
