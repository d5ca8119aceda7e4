import Mathlib
import SchemaScript.Proofs.Meaning

namespace SchemaScript

/-- The tokens of a table up to the end of one of its lines. -/
inductive OpenTableRule : List Token → Table → Prop where
  | table {word name eol : Token} {tokens : List Token} {columns : List ColumnTree} {table : Table}
      (hword : word.kind = .tableWord) (hname : name.kind = .identifier) (heol : eol.kind = .eol)
      (hbody : BodyRule tokens columns)
      (hdescribes : TableTree.Describes ⟨name.literal, columns⟩ table) :
      OpenTableRule (word :: name :: eol :: tokens) table

/-- The tokens of a table up to the end of a clause of one of its columns. -/
inductive OpenLineRule : List Token → Table → Column → Prop where
  | line {opened tokens : List Token} {name type : Token} {tree : TypeTree}
      {clauses : List ClauseTree} {table : Table} {column : Column}
      (htable : OpenTableRule opened table) (hname : name.kind = .identifier)
      (htype : TypeRule type tree) (hclauses : ClausesRule tokens clauses)
      (hdescribes : ColumnTree.Describes ⟨name.literal, tree, clauses⟩ column) :
      OpenLineRule (opened ++ name :: type :: tokens) table column

/-- The tokens that a phase has behind it since the last complete item. -/
def Phase.Pending (tokens : List Token) : Phase → Prop
  | .top => tokens = []
  | .settingKey => ∃ word, word.kind = .setWord ∧ tokens = [word]
  | .settingValue key => ∃ word name, word.kind = .setWord ∧ name.kind = .identifier ∧
      name.literal = key ∧ tokens = [word, name]
  | .settingEnd key value => SettingRule tokens key value
  | .tableName => ∃ word, word.kind = .tableWord ∧ tokens = [word]
  | .tableEnd name => ∃ word first, word.kind = .tableWord ∧ first.kind = .identifier ∧
      first.literal = name ∧ tokens = [word, first]
  | .body table => OpenTableRule tokens table
  | .columnType table name => ∃ opened first, OpenTableRule opened table ∧
      first.kind = .identifier ∧ first.literal = name ∧ tokens = opened ++ [first]
  | .line table column => OpenLineRule tokens table column
  | .clause pending => ∃ opened, OpenLineRule opened pending.table pending.column ∧
      pending.name.kind = .attributeName ∧ pending.arguments = [] ∧
      tokens = opened ++ [pending.name]
  | .firstArgument pending => ∃ opened left, OpenLineRule opened pending.table pending.column ∧
      pending.name.kind = .attributeName ∧ pending.arguments = [] ∧ left.kind = .leftParen ∧
      tokens = opened ++ [pending.name, left]
  | .nextArgument pending => ∃ opened left given comma,
      OpenLineRule opened pending.table pending.column ∧ pending.name.kind = .attributeName ∧
      left.kind = .leftParen ∧ ArgumentsRule given pending.arguments ∧ comma.kind = .comma ∧
      tokens = opened ++ pending.name :: left :: given ++ [comma]
  | .separator pending _ => ∃ opened left given,
      OpenLineRule opened pending.table pending.column ∧ pending.name.kind = .attributeName ∧
      left.kind = .leftParen ∧ ArgumentsRule given pending.arguments ∧
      tokens = opened ++ pending.name :: left :: given

/-- The tokens behind a draft derive the items that describe its schema, and then
what its phase has pending. -/
def Draft.Derived (tokens : List Token) (self : Draft) : Prop :=
  ∃ complete pending items, tokens = complete ++ pending ∧ LinesRule complete items ∧
    Item.Describes items self.schema ∧ self.phase.Pending pending

namespace OpenTableRule

variable {tokens last : List Token} {table : Table} {column : Column}

theorem congr {other : Table} (h : OpenTableRule tokens table) (hname : other.name = table.name)
    (hcolumns : other.columns = table.columns) : OpenTableRule tokens other := by
  obtain ⟨hword, hfirst, heol, hbody, hdescribes⟩ := h
  exact .table hword hfirst heol hbody (hdescribes.congr hname hcolumns)

theorem blank {eol : Token} (h : OpenTableRule tokens table) (heol : eol.kind = .eol) :
    OpenTableRule (tokens ++ [eol]) table := by
  obtain ⟨hword, hname, hfirst, hbody, hdescribes⟩ := h
  exact .table hword hname hfirst (hbody.blank heol) hdescribes

theorem close {word : Token} (h : OpenTableRule tokens table) (hlast : word.kind = .endWord) :
    ∃ tree, TableRule (tokens ++ [word]) tree ∧ tree.Describes table := by
  obtain ⟨hword, hname, heol, hbody, hdescribes⟩ := h
  exact ⟨_, .table hword hname heol hbody hlast, hdescribes⟩

end OpenTableRule

namespace OpenLineRule

variable {schema : Schema} {tokens last : List Token} {table : Table} {column : Column}

/-- A line starts with the name and the type of its column. -/
theorem start {name type : Token} {tree : TypeTree} (htable : OpenTableRule tokens table)
    (hname : name.kind = .identifier) (htype : TypeRule type tree) :
    OpenLineRule (tokens ++ [name] ++ [type]) table
      ⟨name.literal, tree.dataType, tree.attributes⟩ := by
  have hline : ColumnTree.Describes ⟨name.literal, tree, []⟩
      ⟨name.literal, tree.dataType, tree.attributes⟩ :=
    ⟨rfl, rfl, [], (List.append_nil _).symm, .nil⟩
  simpa using OpenLineRule.line htable hname htype .nil hline

theorem close {eol : Token} (h : OpenLineRule tokens table column) (heol : eol.kind = .eol) :
    OpenTableRule (tokens ++ [eol]) (table.addColumn column) := by
  obtain ⟨htable, hname, htype, hclauses, hcolumn⟩ := h
  obtain ⟨hword, hfirst, hfirsteol, hbody, hdescribes⟩ := htable
  have hline := hbody.column (.column hname htype hclauses heol)
  simpa using OpenTableRule.table hword hfirst hfirsteol hline (hdescribes.addColumn hcolumn)

/-- A clause that is attached goes on with the line. -/
theorem attach {clause : Clause} {tree : ClauseTree}
    (h : OpenLineRule tokens clause.table clause.column) (hlast : ClauseRule last tree)
    (hname : tree.name = clause.name.literal) (harguments : tree.arguments = clause.arguments)
    (hattach : clause.attach schema = .ok (table, column)) :
    OpenLineRule (tokens ++ last) table column := by
  obtain ⟨added, hdeclared, _, _, hrecord, rfl⟩ := Clause.attach_eq_ok_iff.mp hattach
  obtain ⟨htable, hfirst, htype, hclauses, hcolumn⟩ := h
  have hopen := htable.congr (Table.record?_name hrecord) (Table.record?_columns hrecord)
  have hadded : tree.Describes added := by
    unfold ClauseTree.Describes
    rwa [hname, harguments]
  simpa using OpenLineRule.line hopen hfirst htype (hclauses.clause hlast)
    (hcolumn.addAttribute hadded)

end OpenLineRule

namespace Draft

variable {schema : Schema} {log : List Event} {phase : Phase} {token : Token}
variable {tokens : List Token} {self next : Draft}

theorem Derived.initial : Derived [] .initial :=
  ⟨[], [], [], rfl, .nil, .nil, rfl⟩

/-- A move inside an item only lengthens what is pending. -/
theorem Derived.within (h : Derived tokens ⟨schema, log, phase⟩) (hschema : next.schema = schema)
    (hphase : ∀ pending, phase.Pending pending → next.phase.Pending (pending ++ [token])) :
    Derived (tokens ++ [token]) next := by
  obtain ⟨complete, pending, items, rfl, hlines, hdescribes, hpending⟩ := h
  exact ⟨complete, pending ++ [token], items, List.append_assoc .., hlines, hschema ▸ hdescribes,
    hphase pending hpending⟩

theorem Derived.reenter {other : Phase} (h : Derived tokens ⟨schema, log, phase⟩)
    (hphase : ∀ pending, phase.Pending pending → other.Pending pending) :
    Derived tokens ⟨schema, log, other⟩ := by
  obtain ⟨complete, pending, items, hsplit, hlines, hdescribes, hpending⟩ := h
  exact ⟨complete, pending, items, hsplit, hlines, hdescribes, hphase pending hpending⟩

/-- A move that ends an item leaves nothing pending. -/
theorem Derived.complete (h : Derived tokens ⟨schema, log, phase⟩) (hnext : next.phase = .top)
    (hphase : ∀ complete pending items, LinesRule complete items → Item.Describes items schema →
      phase.Pending pending → ∃ items', LinesRule (complete ++ (pending ++ [token])) items' ∧
        Item.Describes items' next.schema) :
    Derived (tokens ++ [token]) next := by
  obtain ⟨complete, pending, items, rfl, hlines, hdescribes, hpending⟩ := h
  obtain ⟨items', hlines', hdescribes'⟩ := hphase complete pending items hlines hdescribes hpending
  refine ⟨_, [], items', ?_, hlines', hdescribes', ?_⟩
  · simp
  · rw [hnext]
    rfl

theorem Move.derived (hmove : Move schema log token phase next) (hkind : token.kind ≠ .eof)
    (h : Derived tokens ⟨schema, log, phase⟩) : Derived (tokens ++ [token]) next := by
  induction hmove with
  | skipLine heol =>
    refine h.complete rfl ?_
    rintro complete pending items hlines hdescribes rfl
    exact ⟨items, hlines.blank (heol.resolve_right hkind), hdescribes⟩
  | openTable hword | openSetting hword =>
    refine h.within rfl ?_
    rintro pending rfl
    exact ⟨token, hword, rfl⟩
  | nameSetting hname | nameTable hname =>
    refine h.within rfl ?_
    rintro pending ⟨word, hword, rfl⟩
    exact ⟨word, token, hword, hname, rfl, rfl⟩
  | giveValue hvalue =>
    refine h.within rfl ?_
    rintro pending ⟨word, name, hword, hname, rfl, rfl⟩
    exact .setting hword hname hvalue
  | closeSetting heol =>
    refine h.complete rfl ?_
    intro complete pending items hlines hdescribes hpending
    exact ⟨_, hlines.setting hpending (heol.resolve_right hkind), hdescribes.configure ..⟩
  | openBody heol =>
    refine h.within rfl ?_
    rintro pending ⟨word, name, hword, hname, rfl, rfl⟩
    exact .table hword hname heol .nil ⟨rfl, .nil⟩
  | skipBodyLine heol => exact h.within rfl fun pending hpending => hpending.blank heol
  | closeTable hlast =>
    refine h.complete rfl ?_
    intro complete pending items hlines hdescribes hpending
    obtain ⟨tree, hrule, htree⟩ := OpenTableRule.close hpending hlast
    exact ⟨_, hlines.table hrule, hdescribes.addTable htree⟩
  | nameColumn hname =>
    exact h.within rfl fun pending hpending => ⟨pending, token, hpending, hname, rfl, rfl⟩
  | nameType htype =>
    refine h.within rfl ?_
    rintro pending ⟨opened, name, hopened, hname, rfl, rfl⟩
    exact .start hopened hname (.named htype)
  | giveRawType htype =>
    refine h.within rfl ?_
    rintro pending ⟨opened, name, hopened, hname, rfl, rfl⟩
    exact .start hopened hname (.raw htype)
  | closeColumn heol => exact h.within rfl fun pending hpending => hpending.close heol
  | openClause hname =>
    exact h.within rfl fun pending hpending => ⟨pending, hpending, hname, rfl, rfl⟩
  | openArguments hleft =>
    refine h.within rfl ?_
    rintro pending ⟨opened, hopened, hname, harguments, rfl⟩
    exact ⟨opened, token, hopened, hname, harguments, hleft, by simp⟩
  | closeClause _ hattach _ ih =>
    -- The token is read a second time, on the line that the clause leaves.
    refine ih (h.reenter ?_)
    rintro pending ⟨opened, hopened, hname, harguments, rfl⟩
    exact hopened.attach (.bare hname) rfl harguments.symm hattach
  | closeEmptyArguments hright hattach =>
    refine h.within rfl ?_
    rintro pending ⟨opened, left, hopened, hname, harguments, hleft, rfl⟩
    rw [List.append_assoc]
    exact hopened.attach (.empty hname hleft hright) rfl harguments.symm hattach
  | firstArgument hargument =>
    refine h.within rfl ?_
    rintro pending ⟨opened, left, hopened, hname, harguments, hleft, rfl⟩
    refine ⟨opened, left, [token], hopened, hname, hleft, ?_, by simp [Clause.addArgument]⟩
    simpa [Clause.addArgument, harguments] using ArgumentsRule.one hargument
  | nextArgument hargument =>
    refine h.within rfl ?_
    rintro pending ⟨opened, left, given, comma, hopened, hname, hleft, hgiven, hcomma, rfl⟩
    exact ⟨opened, left, _, hopened, hname, hleft, hgiven.more hcomma hargument,
      by simp [Clause.addArgument]⟩
  | separate hcomma =>
    refine h.within rfl ?_
    rintro pending ⟨opened, left, given, hopened, hname, hleft, hgiven, rfl⟩
    exact ⟨opened, left, given, token, hopened, hname, hleft, hgiven, hcomma, by simp⟩
  | closeArguments hright hattach =>
    refine h.within rfl ?_
    rintro pending ⟨opened, left, given, hopened, hname, hleft, hgiven, rfl⟩
    rw [List.append_assoc]
    exact hopened.attach (.filled hname hleft hgiven hright) rfl rfl hattach

theorem Reads.derived (hreads : Reads self tokens next) {seen : List Token} (h : Derived seen self)
    (hkinds : ∀ token ∈ tokens, token.kind ≠ .eof) : Derived (seen ++ tokens) next :=
  hreads.keeps (fun hmem hdraft hmove => hmove.derived (hkinds _ hmem) hdraft) seen h

/-- The end of a source text is read between items or at the end of a setting. -/
theorem Derived.source (h : Derived tokens self) (hend : token.kind = .eof)
    (hmove : Move self.schema self.log token self.phase next) :
    ∃ items, SourceRule tokens items ∧ Item.Describes items next.schema := by
  obtain ⟨schema, log, phase⟩ := self
  obtain ⟨complete, pending, items, rfl, hlines, hdescribes, hpending⟩ := h
  cases hmove with
  | skipLine =>
    cases hpending
    rw [List.append_nil]
    exact ⟨items, .lines hlines, hdescribes⟩
  | closeSetting => exact ⟨_, .unended hlines hpending, hdescribes.configure ..⟩
  | closeClause _ _ hline => cases hline <;> simp_all
  | firstArgument hargument | nextArgument hargument => simp [Token.argument?, hend] at hargument
  | _ => simp_all

end Draft

/-- The tokens of a text that can be read derive items that describe what is read. -/
theorem Schema.parse_derives {source : String} {schema : Schema}
    (h : (parse source).outcome = .ok schema) :
    ∃ items, SourceRule (Script.ofText source).tokens items ∧ Item.Describes items schema := by
  obtain ⟨next, hreads, rfl⟩ := Draft.run_outcome_eq_ok_iff.mp h
  obtain ⟨last, hreads, hend⟩ := hreads.of_append
  have hderived := hreads.derived .initial
    fun token hmem => (Script.ofText_tokens_spelled source token hmem).2
  cases hend with
  | cons hmove hnil =>
    cases hnil
    exact hderived.source (Script.ofText_eof_kind source) hmove

end SchemaScript
