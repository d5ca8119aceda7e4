import Mathlib
import SchemaScript.Proofs.Completion
import SchemaScript.Proofs.Determinacy
import SchemaScript.Proofs.ForeignKeys

namespace SchemaScript

/-- A start of a list is no longer than the part before an element that is not in it. -/
theorem prefix_of_prefix_concat {α : Type} {xs ys zs : List α} {y : α} (hxs : xs <+: zs)
    (hys : ys ++ [y] <+: zs) (hy : y ∉ xs) : xs <+: ys := by
  rcases List.prefix_or_prefix_of_prefix hxs hys with hxs | hys
  · refine (List.prefix_concat_iff.mp hxs).resolve_left ?_
    rintro rfl
    simp at hy
  · exact absurd (hys.subset (by simp)) hy

/-- What the log tells of the columns of a table. -/
def Table.columnEvents (self : Table) : List Event :=
  self.columns.map fun column => .columnParsed self.name column.name column.type

/-- A part of the log, about one setting or about one table. -/
inductive Passage where
  | setting (key value : String)
  | table (table : Table)

/-- The events of a passage. Those of a table end with the numbers of its columns and of
those that refer to other tables. -/
def Passage.events : Passage → List Event
  | .setting key value => [.configured key value]
  | .table declared =>
    declared.columnEvents ++ [.tableParsed declared.name declared.columns.length
      (declared.columns.countP (·.has .reference))]

/-- The tables that passages are about. -/
def Passage.tables (passages : List Passage) : List Table :=
  passages.filterMap fun
    | .table declared => some declared
    | .setting _ _ => none

/-- The settings that passages are about, as keys with their values. -/
def Passage.settings (passages : List Passage) : List (String × String) :=
  passages.filterMap fun
    | .table _ => none
    | .setting key value => some (key, value)

/-- The log tells of the settings and the tables that make up the schema. -/
def Schema.ToldBy (self : Schema) (log : List Event) : Prop :=
  ∃ passages, log = passages.flatMap Passage.events ∧ Passage.tables passages = self.tables ∧
    Configuration.ofSettings (Passage.settings passages) = self.configuration

/-- The log tells of the items as they are written. -/
def Item.ToldBy (items : List Item) (log : List Event) : Prop :=
  ∃ schema, Item.Describes items schema ∧ schema.ToldBy log

/-- The log tells of the items at the start of the tokens, and at its end perhaps of the
columns of a table that is not complete. All that is written before the fault is
told: complete items, and the lines of a table that is open at the fault. -/
structure ToldUpTo (fault : Position) (tokens : List Token) (log : List Event) : Prop where
  start : ∃ complete items told unfinished, complete <+: tokens ∧ LinesRule complete items ∧
    Item.ToldBy items told ∧ log = told ++ unfinished ∧
    (unfinished = [] ∨ ∃ opened table, complete ++ opened <+: tokens ∧
      OpenTableRule opened table ∧ unfinished = table.columnEvents)
  items : ∀ complete items, complete <+: tokens → (∀ token ∈ complete, token.position ≠ fault) →
    LinesRule complete items → ∃ told, Item.ToldBy items told ∧ told <+: log
  columns : ∀ complete items opened table, complete ++ opened <+: tokens →
    (∀ token ∈ complete ++ opened, token.position ≠ fault) → LinesRule complete items →
    OpenTableRule opened table → ∃ told, Item.ToldBy items told ∧ told ++ table.columnEvents <+: log

/-- There is a statement for the table. -/
def Table.Renderable (self : Table) : Prop :=
  ∃ statement, CreateTable.Defines .sqlite statement self

/-- The tables whose statements are generated: those before the first one without a
statement, and none for a provider that is not supported. -/
structure Schema.Generates (schema : Schema) (generated later : List Table) : Prop where
  tables : schema.tables = generated ++ later
  unsupported : schema.configuration.provider ≠ "sqlite" → generated = []
  renderable : ∀ table ∈ generated, table.Renderable
  stopped : schema.configuration.provider = "sqlite" → ∀ table ∈ later.head?, ¬ table.Renderable

section Events

variable {self changed : Table} {column : Column} {schema : Schema} {log : List Event}

theorem Table.columnEvents_addColumn :
    (self.addColumn column).columnEvents =
      self.columnEvents ++ [.columnParsed self.name column.name column.type] := by
  simp [columnEvents, addColumn]

theorem Clause.columnEvents_attach {clause : Clause}
    (h : clause.attach schema = .ok (changed, column)) :
    changed.columnEvents = clause.table.columnEvents := by
  obtain ⟨_, _, _, _, hrecord, _⟩ := Clause.attach_eq_ok_iff.mp h
  rw [Table.columnEvents, Table.record?_name hrecord, Table.record?_columns hrecord]
  rfl

theorem TableTree.Describes.columnEvents_eq {tree : TableTree} (h : tree.Describes self)
    (hchanged : tree.Describes changed) : self.columnEvents = changed.columnEvents := by
  have hcolumns := List.right_unique_forall₂' ColumnTree.Describes.rightUnique h.columns
    hchanged.columns
  rw [Table.columnEvents, Table.columnEvents, hcolumns, ← h.name, hchanged.name]

theorem Column.foreignKey?_isSome (self : Column) :
    self.foreignKey?.isSome = self.has .reference := by
  rw [Bool.eq_iff_iff, Column.foreignKey?_isSome_iff, Column.has, List.any_eq_true]
  constructor
  · rintro ⟨target, key, hmem⟩
    exact ⟨_, hmem, rfl⟩
  · rintro ⟨attached, hmem, hkind⟩
    cases attached with
    | reference target key => exact ⟨target, key, hmem⟩
    | _ => cases hkind

theorem Table.WellFormed.references_length {earlier : List Table} (h : self.WellFormed earlier) :
    self.references.length = self.columns.countP (·.has .reference) := by
  rw [h.references, Table.foreignKeys, List.length_filterMap_eq_countP]
  exact List.countP_congr fun column _ => by rw [Column.foreignKey?_isSome]

namespace Schema.ToldBy

theorem initial : Schema.initial.ToldBy [] := ⟨[], rfl, rfl, rfl⟩

theorem configure (h : schema.ToldBy log) (key value : String) :
    (schema.configure key value).ToldBy (log ++ [.configured key value]) := by
  obtain ⟨passages, rfl, htables, hsettings⟩ := h
  refine ⟨passages ++ [.setting key value], by simp [Passage.events], ?_, ?_⟩
  · simpa [Passage.tables, Schema.configure] using htables
  · rw [Schema.configure, ← hsettings, ← Configuration.ofSettings_concat]
    simp [Passage.settings]

theorem addTable (h : schema.ToldBy log) (htable : self.WellFormed schema.tables) :
    (schema.addTable self).ToldBy (log ++ (self.columnEvents ++
      [.tableParsed self.name self.columns.length self.references.length])) := by
  obtain ⟨passages, rfl, htables, hsettings⟩ := h
  refine ⟨passages ++ [.table self], ?_, ?_, ?_⟩
  · simp [Passage.events, htable.references_length]
  · simpa [Passage.tables, Schema.addTable] using htables
  · simpa [Passage.settings, Schema.addTable] using hsettings

end Schema.ToldBy

end Events

/-- The table that is open in a phase. -/
def Phase.table? : Phase → Option Table
  | .body table | .columnType table _ | .line table _ => some table
  | .clause pending | .firstArgument pending | .nextArgument pending | .separator pending _ =>
    some pending.table
  | _ => none

theorem OpenLineRule.openTable {tokens : List Token} {table : Table} {column : Column}
    (h : OpenLineRule tokens table column) (more : List Token) :
    ∃ opened, opened <+: tokens ++ more ∧ OpenTableRule opened table := by
  obtain ⟨hopened⟩ := h
  exact ⟨_, (List.prefix_append ..).trans (List.prefix_append ..), hopened⟩

/-- A table that is open has its complete lines behind it. -/
theorem Phase.Pending.openTable {phase : Phase} {tokens : List Token} {table : Table}
    (h : phase.Pending tokens) (htable : phase.table? = some table) :
    ∃ opened, opened <+: tokens ∧ OpenTableRule opened table := by
  cases phase with
  | body =>
    cases htable
    exact ⟨tokens, List.prefix_rfl, h⟩
  | columnType =>
    cases htable
    obtain ⟨opened, first, hopened, _, _, rfl⟩ := h
    exact ⟨opened, List.prefix_append .., hopened⟩
  | line =>
    cases htable
    simpa using OpenLineRule.openTable h []
  | clause =>
    cases htable
    obtain ⟨opened, hopened, _, _, rfl⟩ := h
    exact hopened.openTable _
  | firstArgument =>
    cases htable
    obtain ⟨opened, left, hopened, _, _, _, rfl⟩ := h
    exact hopened.openTable _
  | nextArgument =>
    cases htable
    obtain ⟨opened, left, given, comma, hopened, _, _, _, _, rfl⟩ := h
    rw [List.append_assoc]
    exact hopened.openTable _
  | separator =>
    cases htable
    obtain ⟨opened, left, given, hopened, _, _, _, rfl⟩ := h
    exact hopened.openTable _
  | _ => cases htable

namespace Draft

/-- The log of a draft tells of its schema and then of the columns of the open table. -/
def Logged (schema : Schema) (log : List Event) (phase : Phase) : Prop :=
  ∃ told, schema.ToldBy told ∧ log = told ++ (phase.table?.map Table.columnEvents).getD []

variable {schema : Schema} {log : List Event} {phase : Phase} {token : Token}
variable {tokens : List Token} {self next : Draft}

theorem Logged.toldBy (h : Logged schema log .top) : schema.ToldBy log := by
  obtain ⟨told, htold, rfl⟩ := h
  simpa [Phase.table?] using htold

theorem Logged.attach {clause : Clause} {table : Table} {column : Column}
    (h : Logged schema log phase) (hphase : phase.table? = some clause.table)
    (hattach : clause.attach schema = .ok (table, column)) :
    Logged schema log (.line table column) := by
  obtain ⟨told, htold, rfl⟩ := h
  refine ⟨told, htold, ?_⟩
  rw [hphase]
  simp [Phase.table?, Clause.columnEvents_attach hattach]

theorem Move.logged (hmove : Move schema log token phase next) (hphase : phase.WellFormed schema)
    (h : Logged schema log phase) : Logged next.schema next.log next.phase := by
  induction hmove with
  | closeSetting =>
    obtain ⟨told, htold, rfl⟩ := h
    exact ⟨_, htold.configure .., by simp [Phase.table?]⟩
  | closeTable =>
    obtain ⟨told, htold, rfl⟩ := h
    exact ⟨_, htold.addTable hphase.table, by simp [Phase.table?]⟩
  | closeColumn =>
    obtain ⟨told, htold, rfl⟩ := h
    exact ⟨told, htold, by simp [Phase.table?, Table.columnEvents_addColumn]⟩
  | closeClause _ hattach _ ih => exact ih (hphase.attach hattach) (h.attach rfl hattach)
  | closeEmptyArguments _ hattach | closeArguments _ hattach => exact h.attach rfl hattach
  | _ => exact h

theorem Reads.logged (hreads : Reads .initial tokens next)
    (hspelled : ∀ token ∈ tokens, token.Spelled) : Logged next.schema next.log next.phase := by
  have hkept := hreads.keeps
    (motive := fun _ draft => draft.WellFormed ∧ Logged draft.schema draft.log draft.phase)
    (fun hmem hdraft hmove =>
      ⟨hmove.wellFormed (hspelled _ hmem) hdraft.1.schema hdraft.1.phase,
        hmove.logged hdraft.1.phase hdraft.2⟩)
    [] ⟨initial_wellFormed, [], .initial, rfl⟩
  exact hkept.2

theorem Move.log_prefix (h : Move schema log token phase next) : log <+: next.log := by
  induction h with
  | closeClause _ _ _ ih => exact ih
  | closeSetting | closeTable | closeColumn => exact List.prefix_append ..
  | _ => exact List.prefix_rfl

theorem Reads.log_prefix (h : Reads self tokens next) : self.log <+: next.log := by
  induction h with
  | nil => exact List.prefix_rfl
  | cons hmove _ ih => exact hmove.log_prefix.trans ih

/-- Complete lines are told as soon as they are read. -/
theorem Reads.told_of_lines {items : List Item} (hreads : Reads .initial tokens next)
    (hspelled : ∀ token ∈ tokens, token.Spelled) (hrule : LinesRule tokens items) :
    Item.ToldBy items next.log := by
  obtain ⟨htop, hdescribes⟩ := hreads.describes_lines hrule
  have hlogged := hreads.logged hspelled
  rw [htop] at hlogged
  exact ⟨next.schema, hdescribes, hlogged.toldBy⟩

/-- The lines of an open table are told as soon as they are read. -/
theorem Reads.told_of_openTable {complete opened : List Token} {items : List Item} {table : Table}
    (hreads : Reads .initial (complete ++ opened) next)
    (hspelled : ∀ token ∈ complete ++ opened, token.Spelled) (hrule : LinesRule complete items)
    (hopened : OpenTableRule opened table) :
    ∃ told, Item.ToldBy items told ∧ next.log = told ++ table.columnEvents := by
  obtain ⟨⟨schema, log, phase⟩, hlines, htable⟩ := hreads.of_append
  obtain ⟨rfl, hdescribes⟩ := hlines.describes_lines hrule
  obtain @⟨word, name, eol, tokens, columns, _, hword, hname, heol, hbody, htree⟩ := hopened
  have htable : Reads _ ([word, name, eol] ++ tokens) next := htable
  obtain ⟨middle, hstart, hrest⟩ := htable.of_append
  obtain rfl := hstart.opens_table hword
  obtain ⟨log', found, rfl, hfound⟩ := Reads.describes_body hbody hrest
  obtain ⟨told, htold, hlog⟩ := hreads.logged hspelled
  refine ⟨told, ⟨schema, hdescribes, htold⟩, hlog.trans ?_⟩
  simp [Phase.table?, hfound.columnEvents_eq htree]

/-- A run tells what the draft tells at which it ends, be that the end of the tokens or
a token that cannot be read. -/
theorem run_cases (self : Draft) (tokens : List Token) :
    (∃ next, Reads self tokens next ∧ self.run tokens = ⟨next.log, .ok next.schema⟩) ∨
      ∃ before token after draft error, tokens = before ++ token :: after ∧
        Reads self before draft ∧ draft.step token = .error error ∧
        self.run tokens = ⟨draft.log, .error error⟩ := by
  induction tokens generalizing self with
  | nil => exact .inl ⟨self, .nil self, rfl⟩
  | cons token tokens ih =>
    cases hstep : self.step token with
    | error error =>
      refine .inr ⟨[], token, tokens, self, error, rfl, .nil self, hstep, ?_⟩
      rw [run, hstep]
    | ok middle =>
      have hmove := step_eq_ok_iff.mp hstep
      have hrun : self.run (token :: tokens) = middle.run tokens := by rw [run, hstep]
      rw [hrun]
      rcases ih middle with ⟨next, hreads, hnext⟩ | ⟨before, failing, after, draft, error, rfl,
        hreads, hfails, hdraft⟩
      · exact .inl ⟨next, .cons hmove hreads, hnext⟩
      · exact .inr ⟨token :: before, failing, after, draft, error, rfl, .cons hmove hreads, hfails,
          hdraft⟩

end Draft

namespace Schema

variable {source : String}

theorem parse_log_of_ok {schema : Schema} (h : (parse source).outcome = .ok schema) :
    schema.ToldBy (parse source).log := by
  rcases Draft.initial.run_cases (Script.ofText source).toList with ⟨next, hreads, hrun⟩ |
    ⟨_, _, _, _, _, _, _, _, hrun⟩
  · have hparse : parse source = ⟨next.log, .ok next.schema⟩ := hrun
    rw [hparse] at h ⊢
    cases h
    have hlogged := hreads.logged (Script.ofText_toList_spelled source)
    obtain ⟨last, _, hend⟩ := hreads.of_append
    rw [hend.of_single.phase_of_eof (Script.ofText_eof_kind source)] at hlogged
    exact hlogged.toldBy
  · have hparse : (parse source).outcome = .error _ := congrArg Report.outcome hrun
    cases hparse.symm.trans h

/-- All that is read before a fault is told. This includes every start of the tokens in
which the fault is not shown. -/
theorem exists_reads_of_error {error : ParseError} (h : (parse source).outcome = .error error) :
    ∃ before draft, before <+: (Script.ofText source).tokens ∧ Draft.Reads .initial before draft ∧
      (parse source).log = draft.log ∧
      ∀ start, start <+: (Script.ofText source).tokens →
        (∀ token ∈ start, token.position ≠ error.position) →
        ∃ middle, Draft.Reads .initial start middle ∧ middle.log <+: draft.log := by
  rcases Draft.initial.run_cases (Script.ofText source).toList with ⟨next, _, hrun⟩ |
    ⟨before, token, after, draft, found, hsplit, hreads, hfails, hrun⟩
  · have hparse : (parse source).outcome = .ok _ := congrArg Report.outcome hrun
    cases hparse.symm.trans h
  have hparse : parse source = ⟨draft.log, .error found⟩ := hrun
  obtain rfl : found = error := by
    rw [hparse] at h
    exact Except.error.inj h
  refine ⟨before, draft, ?_, hreads, congrArg Report.log hparse, fun start hstart hfault => ?_⟩
  · have hprefix : before <+: (Script.ofText source).toList := hsplit ▸ List.prefix_append ..
    refine (List.prefix_concat_iff.mp hprefix).resolve_left fun hwhole => ?_
    exact absurd (hwhole ▸ hsplit) (by simp [Script.toList])
  · -- The fault is shown at a token that is read or at the one after, and not in the start.
    obtain ⟨seen, shown, _, hshown, hposition, _⟩ := hreads.shownAmong hfails
    have hread : before ++ [token] <+: (Script.ofText source).toList :=
      ⟨after, by rw [hsplit, List.append_assoc, List.singleton_append]⟩
    have hseen : start <+: seen :=
      prefix_of_prefix_concat (hstart.trans (List.prefix_append ..)) (hshown.trans hread)
        fun hmem => hfault shown hmem hposition
    have hlength : seen.length ≤ before.length := by simpa using hshown.length_le
    have hbefore : seen <+: before :=
      List.prefix_of_prefix_length_le ((List.prefix_append ..).trans hshown)
        (List.prefix_append ..) hlength
    obtain ⟨rest, rfl⟩ := hseen.trans hbefore
    obtain ⟨middle, hfirst, hlater⟩ := hreads.of_append
    exact ⟨middle, hfirst, hlater.log_prefix⟩

theorem parse_log_of_error {error : ParseError} (h : (parse source).outcome = .error error) :
    ToldUpTo error.position (Script.ofText source).tokens (parse source).log := by
  obtain ⟨before, draft, hbefore, hreads, hlog, hearlier⟩ := exists_reads_of_error h
  have hspelled : ∀ start, start <+: (Script.ofText source).tokens →
      ∀ token ∈ start, token.Spelled := fun start hstart token hmem =>
    (Script.ofText_tokens_spelled source token (hstart.subset hmem)).1
  rw [hlog]
  refine ⟨?_, ?_, ?_⟩
  · obtain ⟨told, htold, hlog⟩ := hreads.logged (hspelled before hbefore)
    obtain ⟨complete, pending, items, rfl, hlines, hdescribes, hpending⟩ :=
      hreads.derived .initial fun token hmem =>
        (Script.ofText_tokens_spelled source token (hbefore.subset hmem)).2
    refine ⟨complete, items, told, _, (List.prefix_append ..).trans hbefore, hlines,
      ⟨draft.schema, hdescribes, htold⟩, hlog, ?_⟩
    cases htable : draft.phase.table? with
    | none => exact .inl rfl
    | some table =>
      obtain ⟨opened, hopened, hrule⟩ := hpending.openTable htable
      exact .inr ⟨opened, table, ((List.prefix_append_right_inj _).mpr hopened).trans hbefore,
        hrule, rfl⟩
  · intro complete items hcomplete hfault hrule
    obtain ⟨middle, hfirst, hprefix⟩ := hearlier complete hcomplete hfault
    exact ⟨middle.log, hfirst.told_of_lines (hspelled complete hcomplete) hrule, hprefix⟩
  · intro complete items opened table hopened hfault hrule htable
    obtain ⟨middle, hfirst, hprefix⟩ := hearlier _ hopened hfault
    obtain ⟨told, htold, hmiddle⟩ :=
      hfirst.told_of_openTable (hspelled _ hopened) hrule htable
    exact ⟨told, htold, hmiddle ▸ hprefix⟩

end Schema

section Generation

variable {source : String} {schema : Schema}

/-- Statements are generated for the tables before the first one that has none. -/
theorem Table.statements_log (tables : List Table) :
    ∃ generated later, tables = generated ++ later ∧
      (Table.statements .sqlite tables).log =
        generated.map (fun table => .statementGenerated table.name) ∧
      (∀ table ∈ generated, table.Renderable) ∧ ∀ table ∈ later.head?, ¬ table.Renderable := by
  induction tables with
  | nil => exact ⟨[], [], rfl, rfl, by simp, by simp⟩
  | cons table rest ih =>
    cases hstatement : table.statement .sqlite with
    | error error =>
      refine ⟨[], table :: rest, rfl, by rw [statements, hstatement]; rfl, by simp, ?_⟩
      rintro _ ⟨⟩ ⟨statement, hdefines⟩
      cases hstatement.symm.trans (statement_eq_ok_iff.mpr hdefines)
    | ok statement =>
      obtain ⟨generated, later, rfl, hlog, hgenerated, hlater⟩ := ih
      refine ⟨table :: generated, later, rfl, ?_, ?_, hlater⟩
      · simp [statements, hstatement, hlog]
      · exact List.forall_mem_cons.mpr ⟨⟨statement, statement_eq_ok_iff.mp hstatement⟩, hgenerated⟩

theorem Schema.generate_log (schema : Schema) :
    ∃ generated later, schema.Generates generated later ∧
      schema.generate.log = generated.map fun table => .statementGenerated table.name := by
  by_cases hprovider : schema.configuration.provider = "sqlite"
  · obtain ⟨generated, later, htables, hlog, hgenerated, hlater⟩ :=
      Table.statements_log schema.tables
    refine ⟨generated, later, ⟨htables, absurd hprovider, hgenerated, fun _ => hlater⟩, ?_⟩
    by_cases hnone : schema.tables = []
    · obtain ⟨rfl, rfl⟩ := List.append_eq_nil_iff.mp (htables.symm.trans hnone)
      simp [generate, statements, Dialect.ofName?, hprovider, hnone]
    · simpa [generate, statements, Dialect.ofName?, hprovider, hnone] using hlog
  · refine ⟨[], schema.tables, ⟨rfl, fun _ => rfl, by simp, fun h => absurd h hprovider⟩, ?_⟩
    simp [generate, statements, Dialect.ofName?, hprovider]

/-- When there is a statement for every table, generation does not stop early. -/
theorem Schema.Generates.eq_tables {generated later : List Table} {statements : List CreateTable}
    (h : schema.Generates generated later)
    (hstatements : schema.statements.outcome = .ok statements) : generated = schema.tables := by
  obtain ⟨hprovider, _, hdefines⟩ := Schema.statements_eq_ok_iff.mp hstatements
  cases later with
  | nil => rw [h.tables, List.append_nil]
  | cons table later =>
    have hmem : table ∈ schema.tables := by simp [h.tables]
    obtain ⟨statement, _, hdefined⟩ := exists_left_of_mem hdefines hmem
    exact absurd ⟨statement, hdefined⟩ (h.stopped hprovider table rfl)

theorem compile_log_of_ok (h : (Schema.parse source).outcome = .ok schema) :
    (compile source).log = (Schema.parse source).log ++ schema.generate.log := by
  simp [compile, Report.bind, Report.mapError, h, Except.mapError]

theorem compile_log_of_error {error : ParseError}
    (h : (Schema.parse source).outcome = .error error) :
    (compile source).log = (Schema.parse source).log := by
  simp [compile, Report.bind, Report.mapError, h, Except.mapError]

end Generation

/-- The log tells exactly what was compiled. First come the settings and the tables in
the order in which they were read, up to the first fault. Then come the statements,
up to the first table that has none. -/
theorem compile_log_tells (source : String) :
    ∃ generation, (compile source).log = (Schema.parse source).log ++ generation ∧
      (∀ schema, (Schema.parse source).outcome = .ok schema →
        schema.ToldBy (Schema.parse source).log ∧
        ∃ generated later, schema.Generates generated later ∧
          generation = generated.map (fun table => .statementGenerated table.name) ∧
          ((∃ sql, (compile source).outcome = .ok sql) → generated = schema.tables)) ∧
      ∀ error, (Schema.parse source).outcome = .error error →
        ToldUpTo error.position (Script.ofText source).tokens (Schema.parse source).log ∧
        generation = [] := by
  cases hparse : (Schema.parse source).outcome with
  | error error =>
    refine ⟨[], ?_, fun _ h => (by cases h), ?_⟩
    · rw [compile_log_of_error hparse, List.append_nil]
    · rintro _ ⟨⟩
      exact ⟨Schema.parse_log_of_error hparse, rfl⟩
  | ok schema =>
    obtain ⟨generated, later, hgenerates, hlog⟩ := schema.generate_log
    refine ⟨schema.generate.log, compile_log_of_ok hparse, ?_, fun _ h => (by cases h)⟩
    rintro _ ⟨⟩
    refine ⟨Schema.parse_log_of_ok hparse, generated, later, hgenerates, hlog, ?_⟩
    rintro ⟨sql, hsql⟩
    obtain ⟨parsed, statements, hparsed, hstatements, _⟩ := compile_outcome_eq_ok_iff.mp hsql
    cases hparse.symm.trans hparsed
    exact hgenerates.eq_tables hstatements

end SchemaScript
