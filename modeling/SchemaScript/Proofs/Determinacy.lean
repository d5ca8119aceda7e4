import Mathlib
import SchemaScript.Proofs.Acceptance
import SchemaScript.Proofs.Writing

namespace SchemaScript

section Labels

variable {tokens tokens' : List Token}

theorem Token.kind_of_label_eq {token token' : Token} {kind : Token.Kind}
    (h : token'.label = token.label) (hkind : token.kind = kind) : token'.kind = kind :=
  (label_eq_iff.mp h).1.trans hkind

theorem Token.literal_eq_of_label_eq {token token' : Token} (h : token'.label = token.label) :
    token'.literal = token.literal :=
  (label_eq_iff.mp h).2

theorem Token.argument?_eq_of_label_eq {token token' : Token} (h : token'.label = token.label) :
    token'.argument? = token.argument? := by
  simp only [argument?, kind_of_label_eq h rfl, literal_eq_of_label_eq h]

theorem ArgumentsRule.relabel {arguments : List Argument} (h : ArgumentsRule tokens arguments)
    (hlabels : tokens'.map Token.label = tokens.map Token.label) :
    ArgumentsRule tokens' arguments := by
  induction h generalizing tokens' with
  | one hargument =>
    obtain ⟨token', rfl, htoken⟩ := List.map_eq_singleton_iff.mp hlabels
    exact .one ((Token.argument?_eq_of_label_eq htoken).trans hargument)
  | more _ hcomma hargument ih =>
    rw [List.map_append, List.map_eq_append_iff] at hlabels
    obtain ⟨before, later, rfl, hbefore, hlater⟩ := hlabels
    obtain ⟨comma', later, rfl, hcomma', hlater⟩ := List.map_eq_cons_iff.mp hlater
    obtain ⟨token', rfl, htoken⟩ := List.map_eq_singleton_iff.mp hlater
    exact .more (ih hbefore) (Token.kind_of_label_eq hcomma' hcomma)
      ((Token.argument?_eq_of_label_eq htoken).trans hargument)

theorem ClauseRule.relabel {tree : ClauseTree} (h : ClauseRule tokens tree)
    (hlabels : tokens'.map Token.label = tokens.map Token.label) : ClauseRule tokens' tree := by
  cases h with
  | bare hname =>
    obtain ⟨name', rfl, hname'⟩ := List.map_eq_singleton_iff.mp hlabels
    rw [← Token.literal_eq_of_label_eq hname']
    exact .bare (Token.kind_of_label_eq hname' hname)
  | empty hname hleft hright =>
    obtain ⟨name', later, rfl, hname', hlater⟩ := List.map_eq_cons_iff.mp hlabels
    obtain ⟨left', later, rfl, hleft', hlater⟩ := List.map_eq_cons_iff.mp hlater
    obtain ⟨right', rfl, hright'⟩ := List.map_eq_singleton_iff.mp hlater
    rw [← Token.literal_eq_of_label_eq hname']
    exact .empty (Token.kind_of_label_eq hname' hname)
      (Token.kind_of_label_eq hleft' hleft)
      (Token.kind_of_label_eq hright' hright)
  | filled hname hleft harguments hright =>
    rw [List.map_append, List.map_eq_append_iff] at hlabels
    obtain ⟨start, last, rfl, hstart, hlast⟩ := hlabels
    obtain ⟨name', start, rfl, hname', hstart⟩ := List.map_eq_cons_iff.mp hstart
    obtain ⟨left', given, rfl, hleft', hgiven⟩ := List.map_eq_cons_iff.mp hstart
    obtain ⟨right', rfl, hright'⟩ := List.map_eq_singleton_iff.mp hlast
    rw [← Token.literal_eq_of_label_eq hname']
    exact .filled (Token.kind_of_label_eq hname' hname)
      (Token.kind_of_label_eq hleft' hleft) (harguments.relabel hgiven)
      (Token.kind_of_label_eq hright' hright)

theorem ClausesRule.relabel {clauses : List ClauseTree} (h : ClausesRule tokens clauses)
    (hlabels : tokens'.map Token.label = tokens.map Token.label) :
    ClausesRule tokens' clauses := by
  induction h generalizing tokens' with
  | nil =>
    obtain rfl := List.map_eq_nil_iff.mp hlabels
    exact .nil
  | clause _ hlast ih =>
    rw [List.map_append, List.map_eq_append_iff] at hlabels
    obtain ⟨before, later, rfl, hbefore, hlater⟩ := hlabels
    exact .clause (ih hbefore) (hlast.relabel hlater)

theorem TypeRule.relabel {token token' : Token} {tree : TypeTree} (h : TypeRule token tree)
    (hlabel : token'.label = token.label) : TypeRule token' tree := by
  cases h with
  | named hnamed =>
    rw [← Token.literal_eq_of_label_eq hlabel]
    exact .named (Token.kind_of_label_eq hlabel hnamed)
  | raw hraw =>
    rw [← Token.literal_eq_of_label_eq hlabel]
    exact .raw (Token.kind_of_label_eq hlabel hraw)

theorem ColumnRule.relabel {tree : ColumnTree} (h : ColumnRule tokens tree)
    (hlabels : tokens'.map Token.label = tokens.map Token.label) : ColumnRule tokens' tree := by
  obtain ⟨hname, htype, hclauses, heol⟩ := h
  rw [List.map_append, List.map_eq_append_iff] at hlabels
  obtain ⟨start, last, rfl, hstart, hlast⟩ := hlabels
  obtain ⟨name', start, rfl, hname', hstart⟩ := List.map_eq_cons_iff.mp hstart
  obtain ⟨type', later, rfl, htype', hlater⟩ := List.map_eq_cons_iff.mp hstart
  obtain ⟨eol', rfl, heol'⟩ := List.map_eq_singleton_iff.mp hlast
  rw [← Token.literal_eq_of_label_eq hname']
  exact .column (Token.kind_of_label_eq hname' hname) (htype.relabel htype')
    (hclauses.relabel hlater) (Token.kind_of_label_eq heol' heol)

theorem BodyRule.relabel {columns : List ColumnTree} (h : BodyRule tokens columns)
    (hlabels : tokens'.map Token.label = tokens.map Token.label) : BodyRule tokens' columns := by
  induction h generalizing tokens' with
  | nil =>
    obtain rfl := List.map_eq_nil_iff.mp hlabels
    exact .nil
  | blank _ heol ih =>
    rw [List.map_append, List.map_eq_append_iff] at hlabels
    obtain ⟨before, later, rfl, hbefore, hlater⟩ := hlabels
    obtain ⟨eol', rfl, heol'⟩ := List.map_eq_singleton_iff.mp hlater
    exact .blank (ih hbefore) (Token.kind_of_label_eq heol' heol)
  | column _ hlast ih =>
    rw [List.map_append, List.map_eq_append_iff] at hlabels
    obtain ⟨before, later, rfl, hbefore, hlater⟩ := hlabels
    exact .column (ih hbefore) (hlast.relabel hlater)

/-- Tokens that differ only in their places are the same table. -/
theorem TableRule.relabel {tree : TableTree} (h : TableRule tokens tree)
    (hlabels : tokens'.map Token.label = tokens.map Token.label) : TableRule tokens' tree := by
  obtain ⟨hword, hname, heol, hbody, hlast⟩ := h
  rw [List.map_append, List.map_eq_append_iff] at hlabels
  obtain ⟨start, last, rfl, hstart, hend⟩ := hlabels
  obtain ⟨word', start, rfl, hword', hstart⟩ := List.map_eq_cons_iff.mp hstart
  obtain ⟨name', start, rfl, hname', hstart⟩ := List.map_eq_cons_iff.mp hstart
  obtain ⟨eol', body, rfl, heol', hbody'⟩ := List.map_eq_cons_iff.mp hstart
  obtain ⟨last', rfl, hlast'⟩ := List.map_eq_singleton_iff.mp hend
  rw [← Token.literal_eq_of_label_eq hname']
  exact .table (Token.kind_of_label_eq hword' hword)
    (Token.kind_of_label_eq hname' hname) (Token.kind_of_label_eq heol' heol)
    (hbody.relabel hbody') (Token.kind_of_label_eq hlast' hlast)

theorem SettingRule.relabel {key value : String} (h : SettingRule tokens key value)
    (hlabels : tokens'.map Token.label = tokens.map Token.label) :
    SettingRule tokens' key value := by
  obtain ⟨hword, hkey, hvalue⟩ := h
  obtain ⟨word', later, rfl, hword', hlater⟩ := List.map_eq_cons_iff.mp hlabels
  obtain ⟨key', later, rfl, hkey', hlater⟩ := List.map_eq_cons_iff.mp hlater
  obtain ⟨value', rfl, hvalue'⟩ := List.map_eq_singleton_iff.mp hlater
  rw [← Token.literal_eq_of_label_eq hkey', ← Token.literal_eq_of_label_eq hvalue']
  exact .setting (Token.kind_of_label_eq hword' hword) (Token.kind_of_label_eq hkey' hkey)
    (hvalue.imp (Token.kind_of_label_eq hvalue') (Token.kind_of_label_eq hvalue'))

theorem LinesRule.relabel {items : List Item} (h : LinesRule tokens items)
    (hlabels : tokens'.map Token.label = tokens.map Token.label) : LinesRule tokens' items := by
  induction h generalizing tokens' with
  | nil =>
    obtain rfl := List.map_eq_nil_iff.mp hlabels
    exact .nil
  | blank _ heol ih =>
    rw [List.map_append, List.map_eq_append_iff] at hlabels
    obtain ⟨before, later, rfl, hbefore, hlater⟩ := hlabels
    obtain ⟨eol', rfl, heol'⟩ := List.map_eq_singleton_iff.mp hlater
    exact .blank (ih hbefore) (Token.kind_of_label_eq heol' heol)
  | table _ hlast ih =>
    rw [List.map_append, List.map_eq_append_iff] at hlabels
    obtain ⟨before, later, rfl, hbefore, hlater⟩ := hlabels
    exact .table (ih hbefore) (hlast.relabel hlater)
  | setting _ hlast heol ih =>
    rw [List.map_append, List.map_append, List.map_eq_append_iff] at hlabels
    obtain ⟨before, later, rfl, hbefore, hlater⟩ := hlabels
    obtain ⟨last, rest, rfl, hrest, hend⟩ := List.map_eq_append_iff.mp hlater
    obtain ⟨eol', rfl, heol'⟩ := List.map_eq_singleton_iff.mp hend
    exact .setting (ih hbefore) (hlast.relabel hrest) (Token.kind_of_label_eq heol' heol)

/-- The rules look at the kinds and literals of tokens, but not at their places. -/
theorem SourceRule.relabel {items : List Item} (h : SourceRule tokens items)
    (hlabels : tokens'.map Token.label = tokens.map Token.label) : SourceRule tokens' items := by
  cases h with
  | lines hlines => exact .lines (hlines.relabel hlabels)
  | unended hlines hlast =>
    rw [List.map_append, List.map_eq_append_iff] at hlabels
    obtain ⟨before, later, rfl, hbefore, hlater⟩ := hlabels
    exact .unended (hlines.relabel hbefore) (hlast.relabel hlater)

end Labels

namespace Draft

variable {self next : Draft} {token : Token} {tokens : List Token} {schema : Schema}
variable {log : List Event} {opened : TableTree} {line : ColumnTree} {name : String}
variable {type : TypeTree} {clauses : List ClauseTree}

theorem Reads.of_cons (h : Reads self (token :: tokens) next) :
    ∃ middle, Move self.schema self.log token self.phase middle ∧ Reads middle tokens next := by
  cases h with
  | cons hmove hrest => exact ⟨_, hmove, hrest⟩

theorem Reads.of_single (h : Reads self [token] next) :
    Move self.schema self.log token self.phase next := by
  obtain ⟨middle, hmove, hnil⟩ := h.of_cons
  cases hnil
  exact hmove

theorem Reads.unique {other : Draft} (h : Reads self tokens next)
    (hother : Reads self tokens other) : next = other := by
  induction h with
  | nil =>
    cases hother
    rfl
  | cons hmove _ ih =>
    cases hother with
    | cons hmove' hrest' =>
      have hsame := (step_eq_ok_iff.mpr hmove).symm.trans (step_eq_ok_iff.mpr hmove')
      obtain rfl := Except.ok.inj hsame
      exact ih hrest'

/-- What is left to read after a run that is known. -/
theorem Reads.rest {middle : Draft} {later : List Token} (hfirst : Reads self tokens middle)
    (h : Reads self (tokens ++ later) next) : Reads middle later next := by
  obtain ⟨other, hother, hlater⟩ := h.of_append
  rwa [hfirst.unique hother]

/-- The draft has come to `line` in the table `opened`. The last clause of the line may
still wait for the token after it, and has not been looked at then. -/
def Upto (self : Draft) (opened : TableTree) (line : ColumnTree) : Prop :=
  (∃ table column, self.phase = .line table column ∧ opened.Describes table ∧
    line.Describes column) ∨
  ∃ table column last clauses, self.phase = .clause ⟨table, column, last, []⟩ ∧
    opened.Describes table ∧ line.clauses = clauses ++ [⟨last.literal, []⟩] ∧
    ColumnTree.Describes ⟨line.name, line.type, clauses⟩ column

/-- A clause that is attached is part of the line. -/
theorem describes_of_attach {clause : Clause} {table : Table} {column : Column}
    (h : clause.attach schema = .ok (table, column)) (htable : opened.Describes clause.table)
    (hcolumn : ColumnTree.Describes ⟨name, type, clauses⟩ clause.column) :
    opened.Describes table ∧
      ColumnTree.Describes ⟨name, type, clauses ++ [⟨clause.name.literal, clause.arguments⟩]⟩
        column := by
  obtain ⟨added, hdeclared, _, _, hrecord, rfl⟩ := Clause.attach_eq_ok_iff.mp h
  exact ⟨htable.congr (Table.record?_name hrecord) (Table.record?_columns hrecord),
    hcolumn.addAttribute hdeclared⟩

/-- Any token but an opening parenthesis is read on the line itself. -/
theorem Upto.resume (h : self.Upto opened line) (hkind : token.kind ≠ .leftParen)
    (hmove : Move self.schema self.log token self.phase next) :
    ∃ table column, opened.Describes table ∧ line.Describes column ∧
      Move self.schema self.log token (.line table column) next := by
  rcases h with ⟨table, column, hphase, htable, hcolumn⟩ |
    ⟨table, column, last, clauses, hphase, htable, hclauses, hcolumn⟩
  · rw [hphase] at hmove
    exact ⟨table, column, htable, hcolumn, hmove⟩
  · rw [hphase] at hmove
    cases hmove with
    | openArguments hleft => exact absurd hleft hkind
    | @closeClause _ table' column' _ _ hattach hline =>
      obtain ⟨htable', hcolumn'⟩ := describes_of_attach hattach htable hcolumn
      rw [← hclauses] at hcolumn'
      exact ⟨table', column', htable', hcolumn', hline⟩

/-- A clause is opened by its name. -/
theorem Upto.reads_name (h : self.Upto opened line) (hkind : token.kind = .attributeName)
    (hmove : Move self.schema self.log token self.phase next) :
    ∃ table column, opened.Describes table ∧ line.Describes column ∧
      next = ⟨self.schema, self.log, .clause ⟨table, column, token, []⟩⟩ := by
  obtain ⟨table, column, htable, hcolumn, hmove⟩ := h.resume (by simp [hkind]) hmove
  cases hmove with
  | closeColumn heol => simp [hkind] at heol
  | openClause => exact ⟨table, column, htable, hcolumn, rfl⟩

theorem Upto.reads_clause {tree : ClauseTree} (h : self.Upto opened ⟨name, type, clauses⟩)
    (hrule : ClauseRule tokens tree) (hreads : Reads self tokens next) :
    next.schema = self.schema ∧ next.Upto opened ⟨name, type, clauses ++ [tree]⟩ := by
  cases hrule with
  | @bare first hname =>
    obtain ⟨table, column, htable, hcolumn, rfl⟩ := h.reads_name hname hreads.of_single
    exact ⟨rfl, .inr ⟨table, column, first, clauses, rfl, htable, rfl, hcolumn⟩⟩
  | @empty first left right hname hleft hright =>
    obtain ⟨middle, hmove, hrest⟩ := hreads.of_cons
    obtain ⟨table, column, htable, hcolumn, rfl⟩ := h.reads_name hname hmove
    have hclose := (Reads.single (.openArguments hleft)).rest hrest
    cases hclose.of_single with
    | @closeEmptyArguments _ table' column' _ hattach =>
      exact ⟨rfl, .inl ⟨table', column', rfl, describes_of_attach hattach htable hcolumn⟩⟩
    | firstArgument hargument => simp [Token.argument?, hright] at hargument
  | @filled first left right tokens arguments hname hleft harguments hright =>
    obtain ⟨middle, hmove, hrest⟩ := hreads.of_cons
    obtain ⟨table, column, htable, hcolumn, rfl⟩ := h.reads_name hname hmove
    obtain ⟨last, hgiven⟩ := Reads.arguments harguments
    have hclose := (Reads.cons (.openArguments hleft) hgiven).rest hrest
    cases hclose.of_single with
    | separate hcomma => simp [hright] at hcomma
    | @closeArguments _ _ table' column' _ hattach =>
      exact ⟨rfl, .inl ⟨table', column', rfl, describes_of_attach hattach htable hcolumn⟩⟩

theorem Upto.reads_clauses (h : self.Upto opened ⟨name, type, []⟩)
    (hrule : ClausesRule tokens clauses) (hreads : Reads self tokens next) :
    next.schema = self.schema ∧ next.Upto opened ⟨name, type, clauses⟩ := by
  induction hrule generalizing next with
  | nil =>
    cases hreads
    exact ⟨rfl, h⟩
  | clause _ hlast ih =>
    obtain ⟨middle, hfirst, hlater⟩ := hreads.of_append
    obtain ⟨hschema, hmiddle⟩ := ih hfirst
    obtain ⟨hschema', hnext⟩ := hmiddle.reads_clause hlast hlater
    exact ⟨hschema'.trans hschema, hnext⟩

section Body

variable {table : Table} {columns : List ColumnTree}

theorem Reads.upto_line {first typetoken : Token} {tree : TypeTree}
    (hname : first.kind = .identifier) (htype : TypeRule typetoken tree)
    (htable : opened.Describes table)
    (hreads : Reads ⟨schema, log, .body table⟩ [first, typetoken] next) :
    next.schema = schema ∧ next.Upto opened ⟨first.literal, tree, []⟩ := by
  have hempty : ColumnTree.Describes ⟨first.literal, tree, []⟩
      ⟨first.literal, tree.dataType, tree.attributes⟩ :=
    ⟨rfl, rfl, [], (List.append_nil _).symm, .nil⟩
  obtain ⟨middle, hfirst, hrest⟩ := hreads.of_cons
  cases hfirst with
  | skipBodyLine heol => simp [hname] at heol
  | closeTable hend => simp [hname] at hend
  | nameColumn =>
    cases hrest.of_single with
    | nameType hidentifier =>
      cases htype with
      | named => exact ⟨rfl, .inl ⟨table, _, rfl, htable, hempty⟩⟩
      | raw hraw => simp [hraw] at hidentifier
    | giveRawType hraw =>
      cases htype with
      | named hidentifier => simp [hraw] at hidentifier
      | raw => exact ⟨rfl, .inl ⟨table, _, rfl, htable, hempty⟩⟩

/-- A column line adds the column that it describes. -/
theorem Reads.describes_column {tree : ColumnTree} (hrule : ColumnRule tokens tree)
    (htable : TableTree.Describes ⟨name, columns⟩ table)
    (hreads : Reads ⟨schema, log, .body table⟩ tokens next) :
    ∃ log' table', next = ⟨schema, log', .body table'⟩ ∧
      TableTree.Describes ⟨name, columns ++ [tree]⟩ table' := by
  obtain @⟨first, typetoken, eol, type, tokens, clauses, hname, htype, hclauses, heol⟩ := hrule
  obtain ⟨last, hline, hend⟩ := hreads.of_append
  have hline : Reads _ ([first, typetoken] ++ tokens) last := hline
  obtain ⟨start, hstart, hline⟩ := hline.of_append
  obtain ⟨hschema, hupto⟩ := hstart.upto_line hname htype htable
  obtain ⟨hschema', hupto⟩ := hupto.reads_clauses hclauses hline
  obtain ⟨table', column, htable', hcolumn, hmove⟩ := hupto.resume (by simp [heol]) hend.of_single
  cases hmove with
  | closeColumn =>
    rw [hschema', hschema]
    exact ⟨_, _, rfl, htable'.addColumn hcolumn⟩
  | openClause hattribute => simp [heol] at hattribute

theorem Reads.describes_body (hrule : BodyRule tokens columns)
    (hreads : Reads ⟨schema, log, .body (.empty name)⟩ tokens next) :
    ∃ log' table, next = ⟨schema, log', .body table⟩ ∧
      TableTree.Describes ⟨name, columns⟩ table := by
  induction hrule generalizing next with
  | nil =>
    cases hreads
    exact ⟨log, .empty name, rfl, rfl, .nil⟩
  | blank _ heol ih =>
    obtain ⟨middle, hfirst, hlast⟩ := hreads.of_append
    obtain ⟨log', table, rfl, htable⟩ := ih hfirst
    cases hlast.of_single with
    | skipBodyLine => exact ⟨log', table, rfl, htable⟩
    | closeTable hend => simp [heol] at hend
    | nameColumn hname => simp [heol] at hname
  | column _ hlast ih =>
    obtain ⟨middle, hfirst, hlater⟩ := hreads.of_append
    obtain ⟨log', table, rfl, htable⟩ := ih hfirst
    exact Reads.describes_column hlast htable hlater

end Body

section Source

variable {items : List Item}

theorem Reads.opens_table {word first eol : Token} (hword : word.kind = .tableWord)
    (hreads : Reads ⟨schema, log, .top⟩ [word, first, eol] next) :
    next = ⟨schema, log, .body (.empty first.literal)⟩ := by
  obtain ⟨middle, hmove, hreads⟩ := hreads.of_cons
  cases hmove with
  | skipLine heol => simp [hword] at heol
  | openSetting hset => simp [hword] at hset
  | openTable =>
    obtain ⟨middle, hmove, hreads⟩ := hreads.of_cons
    cases hmove
    cases hreads.of_single
    rfl

/-- A table adds what it describes to the schema. -/
theorem Reads.describes_table {tree : TableTree} (hrule : TableRule tokens tree)
    (hdescribes : Item.Describes items schema) (hreads : Reads ⟨schema, log, .top⟩ tokens next) :
    next.phase = .top ∧ Item.Describes (items ++ [.table tree]) next.schema := by
  obtain @⟨word, first, eol, last, tokens, columns, hword, _, _, hbody, hlast⟩ := hrule
  obtain ⟨middle, hreads, hend⟩ := hreads.of_append
  have hreads : Reads _ ([word, first, eol] ++ tokens) middle := hreads
  obtain ⟨start, hstart, hreads⟩ := hreads.of_append
  obtain rfl := hstart.opens_table hword
  obtain ⟨log', table, rfl, htable⟩ := Reads.describes_body hbody hreads
  cases hend.of_single with
  | closeTable => exact ⟨rfl, hdescribes.addTable htable⟩
  | skipBodyLine heol => simp [hlast] at heol
  | nameColumn hname => simp [hlast] at hname

/-- A setting is made as it is written. -/
theorem Reads.describes_setting {key value : String} (hrule : SettingRule tokens key value)
    (hend : token.kind = .eol ∨ token.kind = .eof)
    (hreads : Reads ⟨schema, log, .top⟩ (tokens ++ [token]) next) :
    next.phase = .top ∧ next.schema = schema.configure key value := by
  obtain @⟨word, first, given, hword, hname, hvalue⟩ := hrule
  have hkey : first.literal ∈ Configuration.keys := by
    obtain ⟨middle, hmove, hreads⟩ := hreads.of_cons
    cases hmove with
    | skipLine heol => simp [hword] at heol
    | openTable htable => simp [hword] at htable
    | openSetting =>
      obtain ⟨middle, hmove, _⟩ := hreads.of_cons
      cases hmove with
      | nameSetting _ hkey => exact hkey
  obtain rfl := hreads.unique (.setting (.setting hword hname hvalue) hkey hend)
  exact ⟨rfl, rfl⟩

theorem Reads.describes_lines (hrule : LinesRule tokens items)
    (hreads : Reads .initial tokens next) :
    next.phase = .top ∧ Item.Describes items next.schema := by
  induction hrule generalizing next with
  | nil =>
    cases hreads
    exact ⟨rfl, .nil⟩
  | blank _ heol ih =>
    obtain ⟨⟨schema, log, phase⟩, hfirst, hlast⟩ := hreads.of_append
    obtain ⟨rfl, hdescribes⟩ := ih hfirst
    cases hlast.of_single with
    | skipLine => exact ⟨rfl, hdescribes⟩
    | openTable hword | openSetting hword => simp [heol] at hword
  | table _ hlast ih =>
    obtain ⟨⟨schema, log, phase⟩, hfirst, hlater⟩ := hreads.of_append
    obtain ⟨rfl, hdescribes⟩ := ih hfirst
    exact Reads.describes_table hlast hdescribes hlater
  | setting _ hlast heol ih =>
    obtain ⟨⟨schema, log, phase⟩, hfirst, hlater⟩ := hreads.of_append
    obtain ⟨rfl, hdescribes⟩ := ih hfirst
    obtain ⟨htop, hschema⟩ := Reads.describes_setting hlast (.inl heol) hlater
    exact ⟨htop, hschema ▸ hdescribes.configure ..⟩

/-- Whatever derivation the tokens of a text have, what is read from them is what the
derivation says. The lemmas before go along the rules, as those about acceptance do, but
take the run as given and the side conditions as what it has checked. -/
theorem Reads.describes_source (hrule : SourceRule tokens items) (hend : token.kind = .eof)
    (hreads : Reads .initial (tokens ++ [token]) next) : Item.Describes items next.schema := by
  cases hrule with
  | lines hlines =>
    obtain ⟨⟨schema, log, phase⟩, hfirst, hlast⟩ := hreads.of_append
    obtain ⟨rfl, hdescribes⟩ := Reads.describes_lines hlines hfirst
    cases hlast.of_single with
    | skipLine => exact hdescribes
    | openTable hword | openSetting hword => simp [hend] at hword
  | unended hlines hlast =>
    rw [List.append_assoc] at hreads
    obtain ⟨⟨schema, log, phase⟩, hfirst, hlater⟩ := hreads.of_append
    obtain ⟨rfl, hdescribes⟩ := Reads.describes_lines hlines hfirst
    obtain ⟨_, hschema⟩ := Reads.describes_setting hlast (.inr hend) hlater
    exact hschema ▸ hdescribes.configure ..

end Source

end Draft

/-- A text with a derivation is read exactly as the well-formed schema that the
derivation describes, if there is one. So it does not matter which derivation of
the text is taken. -/
theorem Schema.parse_eq_ok_iff_describes {source : String} {items : List Item} {schema : Schema}
    (hrule : SourceRule (Script.ofText source).tokens items) :
    (parse source).outcome = .ok schema ↔ Item.Describes items schema ∧ schema.WellFormed := by
  constructor
  · intro h
    obtain ⟨next, hreads, rfl⟩ := Draft.run_outcome_eq_ok_iff.mp h
    exact ⟨hreads.describes_source hrule (Script.ofText_eof_kind source), parse_wellFormed h⟩
  · rintro ⟨hdescribes, hwell⟩
    obtain ⟨found, hfound, hfounddescribes⟩ :=
      exists_parse_of_derivation hrule (hdescribes.admissible hwell)
    rw [hfound, hdescribes.unique hfounddescribes hwell (parse_wellFormed hfound)]

end SchemaScript
