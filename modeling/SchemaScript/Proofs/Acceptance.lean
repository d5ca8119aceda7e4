import Mathlib
import SchemaScript.Proofs.Derivation

namespace SchemaScript

theorem Schema.WellFormed.table?_eq {schema : Schema} {table : Table} (h : schema.WellFormed)
    (hmem : table ∈ schema.tables) : schema.table? table.name = some table := by
  cases hfind : schema.table? table.name with
  | none =>
    rw [table?_eq_none_iff] at hfind
    exact absurd (List.mem_map_of_mem hmem) hfind
  | some found =>
    have hname : found.name = table.name := by simpa using List.find?_some hfind
    rw [List.inj_on_of_nodup_map h.distinct (List.mem_of_find?_eq_some hfind) hmem hname]

/-- A reference finds its target by name among the tables that trees describe. -/
theorem Schema.WellFormed.resolves {schema : Schema} {earlier : List TableTree} {added : Attribute}
    (h : schema.WellFormed) (hearlier : List.Forall₂ TableTree.Describes earlier schema.tables)
    (htarget : ∀ target key, added = .reference target key →
      ∃ table ∈ earlier, table.name = target ∧ key ∈ table.columns.map ColumnTree.name) :
    added.Resolves schema := by
  cases added with
  | reference target key =>
    obtain ⟨tree, htree, rfl, hkey⟩ := htarget target key rfl
    obtain ⟨table, htable, hdescribes⟩ := exists_right_of_mem hearlier htree
    refine ⟨table, hdescribes.name ▸ h.table?_eq htable, ?_⟩
    rw [hdescribes.column_names] at hkey
    rw [Option.isSome_iff_ne_none, ne_eq, Table.column?_eq_none_iff]
    exact not_not_intro hkey
  | _ => trivial

theorem Table.exists_setAction? {self : Table} {reference : Reference} {occasion : Occasion}
    {action : Option String} (h : reference ∈ self.references) :
    ∃ changed, self.setAction? reference.source occasion action = some changed := by
  cases hfind : self.references.findIdx? (·.source == reference.source) with
  | none =>
    rw [List.findIdx?_eq_none_iff] at hfind
    simpa using hfind reference h
  | some index => exact ⟨_, by simp [setAction?, hfind]; rfl⟩

namespace ClauseTree

variable {schema : Schema} {earlier : List TableTree} {self : ClauseTree} {added : Attribute}
variable {table : Table} {column : Column} {name : String} {type : TypeTree}
variable {clauses : List ClauseTree}

/-- A clause whose name is new to the line declares a kind that is new to the column. -/
theorem Describes.has_eq_false (h : self.Describes added)
    (hcolumn : ColumnTree.Describes ⟨name, type, clauses⟩ column)
    (hnew : self.name ∉ clauses.map ClauseTree.name) : column.has added.kind = false := by
  obtain ⟨_, _, declared, hattributes, hdeclared⟩ := hcolumn
  rw [Column.has_eq_false_iff, hattributes, List.map_append, List.mem_append]
  have hraw := h.takes.kind_ne_rawType
  rintro (htype | hother)
  · cases type with
    | named => cases htype
    | raw => exact hraw (List.mem_singleton.mp htype)
  · obtain ⟨other, hmem, hkind⟩ := List.mem_map.mp hother
    obtain ⟨clause, hclause, hdescribes⟩ := exists_left_of_mem hdeclared hmem
    refine hnew (List.mem_map.mpr ⟨clause, hclause, ?_⟩)
    rw [← hdescribes.name_eq, ← h.name_eq, hkind]

/-- An attribute can be recorded when an action has a reference before it. -/
theorem Describes.exists_record? (h : self.Describes added)
    (hcolumn : ColumnTree.Describes ⟨name, type, clauses⟩ column)
    (hafter : self.AfterReference clauses)
    (hadmits : schema.Admits (table.addColumn column)) :
    ∃ changed, table.record? column.name added = some changed := by
  cases added with
  | action occasion action =>
    have hname : self.name = "onDelete" ∨ self.name = "onUpdate" := by
      rw [← h.name_eq]
      cases occasion <;> simp [Attribute.kind, Attribute.Kind.name]
    obtain ⟨other, hother, hothername⟩ := hafter hname
    obtain ⟨_, _, declared, hattributes, hdeclared⟩ := hcolumn
    obtain ⟨referring, hmem, hdescribes⟩ := exists_right_of_mem hdeclared hother
    obtain ⟨target, key, rfl⟩ := hdescribes.eq_reference hothername
    have hkey : column.foreignKey?.isSome :=
      Column.foreignKey?_isSome_iff.mpr ⟨target, key, by simp [hattributes, hmem]⟩
    obtain ⟨reference, hkey⟩ := Option.isSome_iff_exists.mp hkey
    have hreference : reference ∈ table.references := by
      have hreferences : table.references = (table.addColumn column).foreignKeys :=
        hadmits.table.references
      simp [hreferences, Table.foreignKeys_addColumn, hkey]
    rw [← Column.foreignKey?_source hkey]
    exact Table.exists_setAction? hreference
  | _ => exact ⟨_, rfl⟩

/-- A clause that meets the side conditions is attached. -/
theorem exists_attach (clause : Clause) {opened : TableTree}
    (hclause : self = ⟨clause.name.literal, clause.arguments⟩)
    (hadmissible : ColumnTree.Admissible earlier ⟨name, type, clauses ++ [self]⟩)
    (hschema : schema.WellFormed)
    (hearlier : List.Forall₂ TableTree.Describes earlier schema.tables)
    (hadmits : schema.Admits (clause.table.addColumn clause.column))
    (htable : opened.Describes clause.table)
    (hcolumn : ColumnTree.Describes ⟨name, type, clauses⟩ clause.column) :
    ∃ table column, clause.attach schema = .ok (table, column) ∧ opened.Describes table ∧
      ColumnTree.Describes ⟨name, type, clauses ++ [self]⟩ column := by
  obtain ⟨added, hdeclared, htarget⟩ := hadmissible.clauses self (by simp)
  have hnew := not_mem_map_of_nodup_concat hadmissible.distinct
  obtain ⟨table, hrecord⟩ :=
    Describes.exists_record? hdeclared hcolumn hadmissible.actions.last hadmits
  refine ⟨table, clause.column.addAttribute added, ?_,
    htable.congr (Table.record?_name hrecord) (Table.record?_columns hrecord),
    hcolumn.addAttribute hdeclared⟩
  rw [Clause.attach_eq_ok_iff]
  refine ⟨added, ?_, Describes.has_eq_false hdeclared hcolumn hnew,
    hschema.resolves hearlier htarget, hrecord, rfl⟩
  rwa [hclause] at hdeclared

end ClauseTree

theorem Item.Admissible.mem_keys {items : List Item} {key value : String}
    (h : Admissible (items ++ [.setting key value])) : key ∈ Configuration.keys := by
  simpa [Configuration.keys] using h.keys (key, value) (by simp)

namespace Draft

/-- The draft has read the table `opened` up to the column `line`. The last clause
of the line may still wait for the token after it. -/
def OnLine (self : Draft) (opened : TableTree) (line : ColumnTree) : Prop :=
  ∃ table column, opened.Describes table ∧ line.Describes column ∧
    (self.phase = .line table column ∨
      ∃ clause, self.phase = .clause clause ∧ clause.attach self.schema = .ok (table, column))

variable {self next : Draft} {token : Token} {tokens : List Token} {schema : Schema}
variable {log : List Event} {earlier : List TableTree} {opened : TableTree} {line : ColumnTree}
variable {name : String} {type : TypeTree} {clauses : List ClauseTree}

/-- The table and the column that are open. A clause that waits is closed by any
token that does not open its arguments. -/
theorem OnLine.resume (h : self.OnLine opened line) (hself : self.WellFormed) :
    ∃ table column, opened.Describes table ∧ line.Describes column ∧
      self.schema.Admits (table.addColumn column) ∧
      ∀ token next, token.kind ≠ .leftParen →
        Move self.schema self.log token (.line table column) next →
        Move self.schema self.log token self.phase next := by
  obtain ⟨table, column, htable, hcolumn, hphase⟩ := h
  refine ⟨table, column, htable, hcolumn, ?_⟩
  have hwell := hself.phase
  rcases hphase with hline | ⟨clause, hclause, hattach⟩
  · rw [hline] at hwell ⊢
    exact ⟨hwell, fun _ _ _ hmove => hmove⟩
  · rw [hclause] at hwell ⊢
    exact ⟨Clause.WellFormed.attach hwell hattach, fun _ _ hkind => .closeClause hkind hattach⟩

theorem Reads.arguments {table : Table} {column : Column} {name : Token}
    {arguments : List Argument} (h : ArgumentsRule tokens arguments) :
    ∃ last, Reads ⟨schema, log, .firstArgument ⟨table, column, name, []⟩⟩ tokens
      ⟨schema, log, .separator ⟨table, column, name, arguments⟩ last⟩ := by
  induction h with
  | @one token argument hargument => exact ⟨token, .single (.firstArgument hargument)⟩
  | @more tokens arguments comma token argument _ hcomma hargument ih =>
    obtain ⟨last, hreads⟩ := ih
    exact ⟨token, hreads.append (.cons (.separate hcomma) (.single (.nextArgument hargument)))⟩

/-- A clause that meets the side conditions is read to the end of its line. -/
theorem OnLine.reads_clause {tree : ClauseTree} (h : self.OnLine opened ⟨name, type, clauses⟩)
    (hself : self.WellFormed)
    (hearlier : List.Forall₂ TableTree.Describes earlier self.schema.tables)
    (hrule : ClauseRule tokens tree)
    (hadmissible : ColumnTree.Admissible earlier ⟨name, type, clauses ++ [tree]⟩) :
    ∃ next, Reads self tokens next ∧ next.schema = self.schema ∧
      next.OnLine opened ⟨name, type, clauses ++ [tree]⟩ := by
  obtain ⟨table, column, htable, hcolumn, hadmits, hresume⟩ := h.resume hself
  have hattach (first : Token) (arguments : List Argument)
      (htree : tree = ⟨first.literal, arguments⟩) :=
    ClauseTree.exists_attach ⟨table, column, first, arguments⟩ htree hadmissible hself.schema
      hearlier hadmits htable hcolumn
  have hopen (first : Token) (hname : first.kind = .attributeName) :
      Reads self [first] ⟨self.schema, self.log, .clause ⟨table, column, first, []⟩⟩ :=
    .single (hresume first _ (by simp [hname]) (.openClause hname))
  cases hrule with
  | @bare first hname =>
    obtain ⟨table', column', hattach, htable', hcolumn'⟩ := hattach first [] rfl
    exact ⟨_, hopen first hname, rfl, table', column', htable', hcolumn',
      .inr ⟨_, rfl, hattach⟩⟩
  | @empty first left right hname hleft hright =>
    obtain ⟨table', column', hattach, htable', hcolumn'⟩ := hattach first [] rfl
    refine ⟨⟨self.schema, self.log, .line table' column'⟩, ?_, rfl, table', column', htable',
      hcolumn', .inl rfl⟩
    exact (hopen first hname).append
      (.cons (.openArguments hleft) (.single (.closeEmptyArguments hright hattach)))
  | @filled first left right tokens arguments hname hleft harguments hright =>
    obtain ⟨table', column', hattach, htable', hcolumn'⟩ := hattach first arguments rfl
    refine ⟨⟨self.schema, self.log, .line table' column'⟩, ?_, rfl, table', column', htable',
      hcolumn', .inl rfl⟩
    obtain ⟨last, hreads⟩ := Reads.arguments harguments
    exact (hopen first hname).append
      (.cons (.openArguments hleft) (hreads.append (.single (.closeArguments hright hattach))))

theorem OnLine.reads_clauses (h : self.OnLine opened ⟨name, type, []⟩) (hself : self.WellFormed)
    (hearlier : List.Forall₂ TableTree.Describes earlier self.schema.tables)
    (hrule : ClausesRule tokens clauses) (hspelled : ∀ token ∈ tokens, token.Spelled)
    (hadmissible : ColumnTree.Admissible earlier ⟨name, type, clauses⟩) :
    ∃ next, Reads self tokens next ∧ next.schema = self.schema ∧
      next.OnLine opened ⟨name, type, clauses⟩ := by
  induction hrule with
  | nil => exact ⟨self, .nil self, rfl, h⟩
  | @clause tokens last clauses tree _ hlast ih =>
    rw [List.forall_mem_append] at hspelled
    obtain ⟨middle, hreads, hschema, hline⟩ := ih hspelled.1 hadmissible.of_append
    have hmiddle := hreads.wellFormed hself hspelled.1
    rw [← hschema] at hearlier
    obtain ⟨next, hreads', hschema', hline'⟩ :=
      hline.reads_clause hmiddle hearlier hlast hadmissible
    exact ⟨next, hreads.append hreads', hschema'.trans hschema, hline'⟩

section Body

variable {table : Table} {columns : List ColumnTree}

/-- A line begins with a name that is new to the table and with a type. -/
theorem Reads.lineStart (schema : Schema) (log : List Event) {first type : Token}
    {tree : TypeTree} (hname : first.kind = .identifier)
    (hnew : first.literal ∉ opened.columns.map ColumnTree.name) (htype : TypeRule type tree)
    (htable : opened.Describes table) :
    ∃ next, Reads ⟨schema, log, .body table⟩ [first, type] next ∧ next.schema = schema ∧
      next.OnLine opened ⟨first.literal, tree, []⟩ := by
  rw [htable.column_names, ← Table.column?_eq_none_iff] at hnew
  refine ⟨⟨schema, log, .line table ⟨first.literal, tree.dataType, tree.attributes⟩⟩, ?_, rfl,
    table, _, htable, ⟨rfl, rfl, [], (List.append_nil _).symm, .nil⟩, .inl rfl⟩
  refine .cons (.nameColumn hname hnew) (.single ?_)
  cases htype with
  | named htype => exact .nameType htype
  | raw htype => exact .giveRawType htype

theorem OnLine.reads_eol {eol : Token} (h : self.OnLine opened line) (hself : self.WellFormed)
    (heol : eol.kind = .eol) :
    ∃ log' table', Reads self [eol] ⟨self.schema, log', .body table'⟩ ∧
      TableTree.Describes ⟨opened.name, opened.columns ++ [line]⟩ table' := by
  obtain ⟨table, column, htable, hcolumn, _, hresume⟩ := h.resume hself
  have hclose := hresume eol _ (by simp [heol]) (.closeColumn heol)
  exact ⟨_, _, .single hclose, htable.addColumn hcolumn⟩

/-- A column line that meets the side conditions is added to the open table. -/
theorem Reads.column {tree : ColumnTree} (hself : WellFormed ⟨schema, log, .body table⟩)
    (htable : TableTree.Describes ⟨name, columns⟩ table)
    (hearlier : List.Forall₂ TableTree.Describes earlier schema.tables)
    (hrule : ColumnRule tokens tree) (hspelled : ∀ token ∈ tokens, token.Spelled)
    (hadmissible : TableTree.Admissible earlier ⟨name, columns ++ [tree]⟩) :
    ∃ log' table', Reads ⟨schema, log, .body table⟩ tokens ⟨schema, log', .body table'⟩ ∧
      TableTree.Describes ⟨name, columns ++ [tree]⟩ table' := by
  obtain @⟨first, type, eol, typetree, tokens, clauses, hname, htype, hclauses, heol⟩ := hrule
  have hnew := not_mem_map_of_nodup_concat hadmissible.distinct
  simp only [List.cons_append, List.forall_mem_cons, List.forall_mem_append] at hspelled
  obtain ⟨hfirst, htypespelled, hspelled, _⟩ := hspelled
  obtain ⟨start, hstart, rfl, hline⟩ := Reads.lineStart schema log hname hnew htype htable
  have hwell := hstart.wellFormed hself (by simp [hfirst, htypespelled])
  obtain ⟨last, hreads, hschema, hlast⟩ := hline.reads_clauses hwell hearlier hclauses hspelled
    (hadmissible.columns _ (by simp))
  obtain ⟨log', table', hend, htable'⟩ := hlast.reads_eol (hreads.wellFormed hwell hspelled) heol
  rw [hschema] at hend
  exact ⟨log', table', hstart.append (hreads.append hend), htable'⟩

theorem Reads.body (hself : WellFormed ⟨schema, log, .body (.empty name)⟩)
    (hearlier : List.Forall₂ TableTree.Describes earlier schema.tables)
    (hrule : BodyRule tokens columns) (hspelled : ∀ token ∈ tokens, token.Spelled)
    (hadmissible : TableTree.Admissible earlier ⟨name, columns⟩) :
    ∃ log' table, Reads ⟨schema, log, .body (.empty name)⟩ tokens ⟨schema, log', .body table⟩ ∧
      TableTree.Describes ⟨name, columns⟩ table := by
  induction hrule with
  | nil => exact ⟨log, .empty name, .nil _, rfl, .nil⟩
  | blank _ heol ih =>
    rw [List.forall_mem_append] at hspelled
    obtain ⟨log', table, hreads, htable⟩ := ih hspelled.1 hadmissible
    exact ⟨log', table, hreads.append (.single (.skipBodyLine heol)), htable⟩
  | column _ hlast ih =>
    rw [List.forall_mem_append] at hspelled
    obtain ⟨log', table, hreads, htable⟩ := ih hspelled.1 hadmissible.of_append
    obtain ⟨log'', table', hreads', htable'⟩ := Reads.column
      (hreads.wellFormed hself hspelled.1) htable hearlier hlast hspelled.2 hadmissible
    exact ⟨log'', table', hreads.append hreads', htable'⟩

end Body

section Source

variable {items : List Item}

/-- A table that meets the side conditions is added to the schema. -/
theorem Reads.table {tree : TableTree} (hself : WellFormed ⟨schema, log, .top⟩)
    (hdescribes : Item.Describes items schema) (hrule : TableRule tokens tree)
    (hspelled : ∀ token ∈ tokens, token.Spelled)
    (hadmissible : Item.Admissible (items ++ [.table tree])) :
    ∃ log' schema', Reads ⟨schema, log, .top⟩ tokens ⟨schema', log', .top⟩ ∧
      Item.Describes (items ++ [.table tree]) schema' := by
  obtain ⟨_, hdistinct, htables⟩ := hadmissible
  rw [Item.tables_concat_table] at hdistinct htables
  obtain @⟨word, first, eol, last, tokens, columns, hword, hname, heol, hbody, hlast⟩ := hrule
  have hnew : schema.table? first.literal = none := by
    rw [Schema.table?_eq_none_iff, ← hdescribes.table_names]
    exact not_mem_map_of_nodup_concat hdistinct
  have hstart : Reads ⟨schema, log, .top⟩ [word, first, eol]
      ⟨schema, log, .body (.empty first.literal)⟩ :=
    .cons (.openTable hword) (.cons (.nameTable hname hnew) (.single (.openBody heol)))
  rw [List.forall_mem_append] at hspelled
  have hwell := hstart.wellFormed hself fun token hmem =>
    hspelled.1 token (List.mem_append_left tokens hmem)
  obtain ⟨log', table, hreads, htable⟩ := Reads.body hwell hdescribes.tables hbody
    (fun token hmem => hspelled.1 token (List.mem_append_right [word, first, eol] hmem))
    htables.last
  exact ⟨_, _, hstart.append (hreads.append (.single (.closeTable hlast))),
    hdescribes.addTable htable⟩

/-- A setting is made by the line end or the end of the text after it. -/
theorem Reads.setting {key value : String} (hrule : SettingRule tokens key value)
    (hkey : key ∈ Configuration.keys) (hend : token.kind = .eol ∨ token.kind = .eof) :
    Reads ⟨schema, log, .top⟩ (tokens ++ [token])
      ⟨schema.configure key value, log ++ [.configured key value], .top⟩ := by
  obtain ⟨hword, hname, hvalue⟩ := hrule
  exact .cons (.openSetting hword) (.cons (.nameSetting hname hkey)
    (.cons (.giveValue hvalue) (.single (.closeSetting hend))))

theorem Reads.lines (hrule : LinesRule tokens items) (hspelled : ∀ token ∈ tokens, token.Spelled)
    (hadmissible : Item.Admissible items) :
    ∃ schema log, Reads .initial tokens ⟨schema, log, .top⟩ ∧ Item.Describes items schema := by
  -- That the schema so far is well formed, as every run keeps it, makes the side
  -- conditions of the next item into look-ups that succeed.
  induction hrule with
  | nil => exact ⟨_, _, .nil .initial, .nil⟩
  | blank _ heol ih =>
    rw [List.forall_mem_append] at hspelled
    obtain ⟨schema, log, hreads, hdescribes⟩ := ih hspelled.1 hadmissible
    exact ⟨schema, log, hreads.append (.single (.skipLine (.inl heol))), hdescribes⟩
  | table _ hlast ih =>
    rw [List.forall_mem_append] at hspelled
    obtain ⟨schema, log, hreads, hdescribes⟩ := ih hspelled.1 hadmissible.of_append
    obtain ⟨log', schema', hreads', hdescribes'⟩ := Reads.table
      (hreads.wellFormed initial_wellFormed hspelled.1) hdescribes hlast hspelled.2 hadmissible
    exact ⟨schema', log', hreads.append hreads', hdescribes'⟩
  | setting _ hlast heol ih =>
    rw [List.forall_mem_append] at hspelled
    obtain ⟨schema, log, hreads, hdescribes⟩ := ih hspelled.1 hadmissible.of_append
    exact ⟨_, _, hreads.append (.setting hlast hadmissible.mem_keys (.inl heol)),
      hdescribes.configure ..⟩

/-- Items that meet the side conditions are read up to the end of the text. -/
theorem Reads.source (hrule : SourceRule tokens items)
    (hspelled : ∀ token ∈ tokens, token.Spelled) (hadmissible : Item.Admissible items)
    (hend : token.kind = .eof) :
    ∃ next, Reads .initial (tokens ++ [token]) next ∧ Item.Describes items next.schema := by
  cases hrule with
  | lines hlines =>
    obtain ⟨schema, log, hreads, hdescribes⟩ := Reads.lines hlines hspelled hadmissible
    exact ⟨_, hreads.append (.single (.skipLine (.inr hend))), hdescribes⟩
  | unended hlines hlast =>
    rw [List.forall_mem_append] at hspelled
    obtain ⟨schema, log, hreads, hdescribes⟩ := Reads.lines hlines hspelled.1 hadmissible.of_append
    rw [List.append_assoc]
    exact ⟨_, hreads.append (.setting hlast hadmissible.mem_keys (.inr hend)),
      hdescribes.configure ..⟩

end Source

end Draft

namespace Schema

variable {source : String} {items : List Item}

/-- A text whose tokens derive items that meet the side conditions is read as what
the items say. -/
theorem exists_parse_of_derivation (hrule : SourceRule (Script.ofText source).tokens items)
    (hadmissible : Item.Admissible items) :
    ∃ schema, (parse source).outcome = .ok schema ∧ Item.Describes items schema := by
  obtain ⟨next, hreads, hdescribes⟩ := Draft.Reads.source hrule
    (fun token hmem => (Script.ofText_tokens_spelled source token hmem).1) hadmissible
    (Script.ofText_eof_kind source)
  exact ⟨next.schema, Draft.run_outcome_eq_ok_iff.mpr ⟨next, hreads, rfl⟩, hdescribes⟩

/-- A text is accepted exactly when its tokens have a derivation in the grammar
that meets the side conditions. -/
theorem parse_ok_iff_derivable (source : String) :
    (∃ schema, (parse source).outcome = .ok schema) ↔
      ∃ items, SourceRule (Script.ofText source).tokens items ∧ Item.Admissible items := by
  constructor
  · rintro ⟨schema, h⟩
    obtain ⟨items, hrule, hdescribes⟩ := parse_derives h
    exact ⟨items, hrule, hdescribes.admissible (parse_wellFormed h)⟩
  · rintro ⟨items, hrule, hadmissible⟩
    obtain ⟨schema, h, _⟩ := exists_parse_of_derivation hrule hadmissible
    exact ⟨schema, h⟩

end Schema

end SchemaScript
