import Mathlib
import SchemaScript.Schema.Draft

namespace SchemaScript

/-- The argument that a token stands for between the parentheses of a clause. -/
def Token.argument? (self : Token) : Option Argument :=
  match self.kind with
  | .string => some (.text self.literal)
  | .raw => some (.raw self.literal)
  | _ => none

namespace Draft

/-- What a draft that holds `schema` and `log` becomes when it reads `token` in a
phase. A clause that opens no parentheses is closed by the token after it,
which is then read on the line as if the clause had been closed before. -/
inductive Move (schema : Schema) (log : List Event) (token : Token) : Phase → Draft → Prop where
  | skipLine (hkind : token.kind = .eol ∨ token.kind = .eof) :
      Move schema log token .top ⟨schema, log, .top⟩
  | openTable (hkind : token.kind = .tableWord) :
      Move schema log token .top ⟨schema, log, .tableName⟩
  | openSetting (hkind : token.kind = .setWord) :
      Move schema log token .top ⟨schema, log, .settingKey⟩
  | nameSetting (hkind : token.kind = .identifier) (hkey : token.literal ∈ Configuration.keys) :
      Move schema log token .settingKey ⟨schema, log, .settingValue token.literal⟩
  | giveValue {key : String} (hkind : token.kind = .identifier ∨ token.kind = .string) :
      Move schema log token (.settingValue key) ⟨schema, log, .settingEnd key token.literal⟩
  | closeSetting {key value : String} (hkind : token.kind = .eol ∨ token.kind = .eof) :
      Move schema log token (.settingEnd key value)
        ⟨schema.configure key value, log ++ [.configured key value], .top⟩
  | nameTable (hkind : token.kind = .identifier) (hnew : schema.table? token.literal = none) :
      Move schema log token .tableName ⟨schema, log, .tableEnd token.literal⟩
  | openBody {name : String} (hkind : token.kind = .eol) :
      Move schema log token (.tableEnd name) ⟨schema, log, .body (.empty name)⟩
  | skipBodyLine {table : Table} (hkind : token.kind = .eol) :
      Move schema log token (.body table) ⟨schema, log, .body table⟩
  | closeTable {table : Table} (hkind : token.kind = .endWord) :
      Move schema log token (.body table)
        ⟨schema.addTable table,
          log ++ [.tableParsed table.name table.columns.length table.references.length], .top⟩
  | nameColumn {table : Table} (hkind : token.kind = .identifier)
      (hnew : table.column? token.literal = none) :
      Move schema log token (.body table) ⟨schema, log, .columnType table token.literal⟩
  | nameType {table : Table} {name : String} (hkind : token.kind = .identifier) :
      Move schema log token (.columnType table name)
        ⟨schema, log, .line table ⟨name, .named token.literal, []⟩⟩
  | giveRawType {table : Table} {name : String} (hkind : token.kind = .raw) :
      Move schema log token (.columnType table name)
        ⟨schema, log, .line table ⟨name, .raw, [.rawType token.literal]⟩⟩
  | closeColumn {table : Table} {column : Column} (hkind : token.kind = .eol) :
      Move schema log token (.line table column)
        ⟨schema, log ++ [.columnParsed table.name column.name column.type],
          .body (table.addColumn column)⟩
  | openClause {table : Table} {column : Column} (hkind : token.kind = .attributeName) :
      Move schema log token (.line table column)
        ⟨schema, log, .clause ⟨table, column, token, []⟩⟩
  | openArguments {clause : Clause} (hkind : token.kind = .leftParen) :
      Move schema log token (.clause clause) ⟨schema, log, .firstArgument clause⟩
  | closeClause {clause : Clause} {table : Table} {column : Column} {next : Draft}
      (hkind : token.kind ≠ .leftParen) (hattach : clause.attach schema = .ok (table, column))
      (hline : Move schema log token (.line table column) next) :
      Move schema log token (.clause clause) next
  | closeEmptyArguments {clause : Clause} {table : Table} {column : Column}
      (hkind : token.kind = .rightParen) (hattach : clause.attach schema = .ok (table, column)) :
      Move schema log token (.firstArgument clause) ⟨schema, log, .line table column⟩
  | firstArgument {clause : Clause} {argument : Argument}
      (hargument : token.argument? = some argument) :
      Move schema log token (.firstArgument clause)
        ⟨schema, log, .separator (clause.addArgument argument) token⟩
  | nextArgument {clause : Clause} {argument : Argument}
      (hargument : token.argument? = some argument) :
      Move schema log token (.nextArgument clause)
        ⟨schema, log, .separator (clause.addArgument argument) token⟩
  | separate {clause : Clause} {last : Token} (hkind : token.kind = .comma) :
      Move schema log token (.separator clause last) ⟨schema, log, .nextArgument clause⟩
  | closeArguments {clause : Clause} {last : Token} {table : Table} {column : Column}
      (hkind : token.kind = .rightParen) (hattach : clause.attach schema = .ok (table, column)) :
      Move schema log token (.separator clause last) ⟨schema, log, .line table column⟩

section

variable {self next : Draft} {token : Token} {clause : Clause} {table : Table} {column : Column}

theorem closeClause_eq_ok_iff {attached : Table × Column} :
    self.closeClause clause = .ok attached ↔ clause.attach self.schema = .ok attached := by
  unfold Draft.closeClause
  split
  next hattach => simp [hattach]
  next hattach => simp [hattach, fail]

private theorem endArguments_eq_ok_iff :
    self.endArguments clause = .ok next ↔
      ∃ table column, clause.attach self.schema = .ok (table, column) ∧
        next = self.enter (.line table column) := by
  unfold endArguments
  constructor
  · intro h
    split at h
    next table column hclose =>
      exact ⟨table, column, closeClause_eq_ok_iff.mp hclose, (Except.ok.inj h).symm⟩
    next => cases h
  · rintro ⟨table, column, hattach, rfl⟩
    rw [closeClause_eq_ok_iff.mpr hattach]

private theorem atArgument_eq_ok_iff :
    self.atArgument clause token = .ok next ↔
      ∃ argument, token.argument? = some argument ∧
        next = self.enter (.separator (clause.addArgument argument) token) := by
  unfold atArgument Token.argument?
  split <;> simp [unexpected, fail, eq_comm (a := next), *]

private theorem move_of_atLine (h : self.atLine table column token = .ok next) :
    Move self.schema self.log token (.line table column) next := by
  unfold atLine at h
  split at h
  next hkind => cases h; exact .closeColumn hkind
  next => cases h
  next hkind => cases h; exact .openClause hkind
  next => cases h

private theorem move_of_endArguments
    (hclose : ∀ table column, clause.attach self.schema = .ok (table, column) →
      Move self.schema self.log token self.phase ⟨self.schema, self.log, .line table column⟩)
    (h : self.endArguments clause = .ok next) :
    Move self.schema self.log token self.phase next := by
  obtain ⟨table, column, hattach, rfl⟩ := endArguments_eq_ok_iff.mp h
  exact hclose table column hattach

private theorem move_of_step (h : self.step token = .ok next) :
    Move self.schema self.log token self.phase next := by
  obtain ⟨schema, log, phase⟩ := self
  cases phase with
  | top =>
    simp only [step, atTop] at h
    split at h
    next hkind => cases h; exact .skipLine (.inr hkind)
    next hkind => cases h; exact .skipLine (.inl hkind)
    next hkind => cases h; exact .openTable hkind
    next hkind => cases h; exact .openSetting hkind
    next => cases h
  | settingKey =>
    simp only [step, atSettingKey] at h
    split at h
    next => cases h
    next hkind =>
      split at h
      next => cases h
      next hkey =>
        cases h
        exact .nameSetting (Decidable.of_not_not hkind) (Decidable.of_not_not hkey)
  | settingValue key =>
    simp only [step, atSettingValue] at h
    split at h
    next hkind => cases h; exact .giveValue (.inl hkind)
    next hkind => cases h; exact .giveValue (.inr hkind)
    all_goals cases h
  | settingEnd key value =>
    simp only [step, atSettingEnd] at h
    split at h
    next hkind => cases h; exact .closeSetting (.inl hkind)
    next hkind => cases h; exact .closeSetting (.inr hkind)
    next => cases h
  | tableName =>
    simp only [step, atTableName] at h
    split at h
    next hkind =>
      split at h
      next => cases h
      next hnew => cases h; exact .nameTable hkind (by simpa using hnew)
    all_goals cases h
  | tableEnd name =>
    simp only [step, atTableEnd] at h
    split at h
    next hkind => cases h; exact .openBody hkind
    next => cases h
  | body table =>
    simp only [step, atBody] at h
    split at h
    next hkind => cases h; exact .closeTable hkind
    next hkind => cases h; exact .skipBodyLine hkind
    next => cases h
    next => cases h
    next hkind =>
      split at h
      next => cases h
      next hnew => cases h; exact .nameColumn hkind (by simpa using hnew)
    next => cases h
  | columnType table name =>
    simp only [step, atColumnType] at h
    split at h
    next hkind => cases h; exact .nameType hkind
    next hkind => cases h; exact .giveRawType hkind
    next => cases h
  | line table column => exact move_of_atLine h
  | clause clause =>
    simp only [step, atClause] at h
    split at h
    next hkind => cases h; exact .openArguments hkind
    next hkind =>
      split at h
      next table column hclose =>
        exact .closeClause hkind (closeClause_eq_ok_iff.mp hclose) (move_of_atLine h)
      next => cases h
  | firstArgument clause =>
    simp only [step, atFirstArgument] at h
    split at h
    next hkind => exact move_of_endArguments (fun _ _ => .closeEmptyArguments hkind) h
    next =>
      obtain ⟨argument, hargument, rfl⟩ := atArgument_eq_ok_iff.mp h
      exact .firstArgument hargument
  | nextArgument clause =>
    obtain ⟨argument, hargument, rfl⟩ := atArgument_eq_ok_iff.mp h
    exact .nextArgument hargument
  | separator clause last =>
    simp only [step, atSeparator] at h
    split at h
    next hkind => exact move_of_endArguments (fun _ _ => .closeArguments hkind) h
    next hkind => cases h; exact .separate hkind
    next => split at h <;> cases h
    next => cases h

private theorem step_of_move {schema : Schema} {log : List Event} {phase : Phase}
    (h : Move schema log token phase next) : step ⟨schema, log, phase⟩ token = .ok next := by
  induction h with
  | skipLine hkind => rcases hkind with hkind | hkind <;> simp [step, atTop, hkind]
  | openTable hkind => simp [step, atTop, hkind, enter]
  | openSetting hkind => simp [step, atTop, hkind, enter]
  | nameSetting hkind hkey => simp [step, atSettingKey, hkind, hkey, enter]
  | giveValue hkind => rcases hkind with hkind | hkind <;> simp [step, atSettingValue, hkind, enter]
  | closeSetting hkind =>
    rcases hkind with hkind | hkind <;> simp [step, atSettingEnd, hkind, configure]
  | nameTable hkind hnew => simp [step, atTableName, hkind, hnew, enter]
  | openBody hkind => simp [step, atTableEnd, hkind, enter]
  | skipBodyLine hkind => simp [step, atBody, hkind]
  | closeTable hkind => simp [step, atBody, hkind, Draft.closeTable]
  | nameColumn hkind hnew => simp [step, atBody, hkind, hnew, enter]
  | nameType hkind => simp [step, atColumnType, hkind, enter]
  | giveRawType hkind => simp [step, atColumnType, hkind, enter]
  | closeColumn hkind => simp [step, atLine, hkind, Draft.closeColumn]
  | openClause hkind => simp [step, atLine, hkind, enter]
  | openArguments hkind => simp [step, atClause, hkind, enter]
  | @closeClause clause table column next hkind hattach _ ih =>
    have hclose : Draft.closeClause ⟨schema, log, .clause clause⟩ clause = .ok (table, column) :=
      closeClause_eq_ok_iff.mpr hattach
    simp only [step, atClause, if_neg hkind, hclose]
    exact ih
  | closeEmptyArguments hkind hattach =>
    simp only [step, atFirstArgument, if_pos hkind]
    exact endArguments_eq_ok_iff.mpr ⟨_, _, hattach, rfl⟩
  | firstArgument hargument =>
    have hkind : token.kind ≠ .rightParen := by
      intro hkind
      simp [Token.argument?, hkind] at hargument
    simp only [step, atFirstArgument, if_neg hkind]
    exact atArgument_eq_ok_iff.mpr ⟨_, hargument, rfl⟩
  | nextArgument hargument => exact atArgument_eq_ok_iff.mpr ⟨_, hargument, rfl⟩
  | separate hkind => simp [step, atSeparator, hkind, enter]
  | closeArguments hkind hattach =>
    simp only [step, atSeparator, hkind]
    exact endArguments_eq_ok_iff.mpr ⟨_, _, hattach, rfl⟩

/-- The moves are exactly the steps that succeed. -/
theorem step_eq_ok_iff :
    self.step token = .ok next ↔ Move self.schema self.log token self.phase next :=
  ⟨move_of_step, step_of_move⟩

end

/-- `self.Reads tokens next` says that all the tokens are read without a fault and
that they turn `self` into `next`. -/
inductive Reads : Draft → List Token → Draft → Prop where
  | nil (self : Draft) : Reads self [] self
  | cons {self middle next : Draft} {token : Token} {tokens : List Token}
      (hmove : Move self.schema self.log token self.phase middle)
      (hrest : Reads middle tokens next) : Reads self (token :: tokens) next

namespace Reads

variable {self middle next : Draft} {token : Token} {tokens later : List Token}

theorem append (hfirst : Reads self tokens middle) (hlater : Reads middle later next) :
    Reads self (tokens ++ later) next := by
  induction hfirst with
  | nil => exact hlater
  | cons hmove _ ih => exact .cons hmove (ih hlater)

theorem of_append (h : Reads self (tokens ++ later) next) :
    ∃ middle, Reads self tokens middle ∧ Reads middle later next := by
  induction tokens generalizing self with
  | nil => exact ⟨self, .nil self, h⟩
  | cons token tokens ih =>
    cases h with
    | cons hmove hrest =>
      obtain ⟨middle, hfirst, hlater⟩ := ih hrest
      exact ⟨middle, .cons hmove hfirst, hlater⟩

theorem single (hmove : Move self.schema self.log token self.phase next) :
    Reads self [token] next :=
  .cons hmove (.nil next)

/-- What holds of a draft and of the tokens behind it, and is kept by every move,
holds after every run. -/
theorem keeps {motive : List Token → Draft → Prop}
    (hstep : ∀ {seen : List Token} {draft : Draft} {token : Token} {after : Draft},
      token ∈ tokens → motive seen draft →
        Move draft.schema draft.log token draft.phase after → motive (seen ++ [token]) after)
    (seen : List Token) (hseen : motive seen self) (hreads : Reads self tokens next) :
    motive (seen ++ tokens) next := by
  induction hreads generalizing seen with
  | nil => simpa using hseen
  | @cons self middle next token tokens hmove _ ih =>
    have hmiddle := hstep List.mem_cons_self hseen hmove
    have hnext := ih (fun htoken => hstep (List.mem_cons_of_mem _ htoken)) _ hmiddle
    simpa using hnext

end Reads

/-- A run succeeds with a schema exactly when its tokens can be read up to a draft
that holds the schema. -/
theorem run_outcome_eq_ok_iff {self : Draft} {tokens : List Token} {schema : Schema} :
    (self.run tokens).outcome = .ok schema ↔
      ∃ next, Reads self tokens next ∧ next.schema = schema := by
  induction tokens generalizing self with
  | nil =>
    constructor
    · intro h
      exact ⟨self, .nil self, by simpa [run] using h⟩
    · rintro ⟨next, hreads, rfl⟩
      cases hreads
      rfl
  | cons token tokens ih =>
    rw [run]
    constructor
    · intro h
      split at h
      next middle hstep =>
        obtain ⟨next, hreads, hschema⟩ := ih.mp h
        exact ⟨next, .cons (step_eq_ok_iff.mp hstep) hreads, hschema⟩
      next => cases h
    · rintro ⟨next, hreads, hschema⟩
      cases hreads with
      | cons hmove hrest =>
        rw [step_eq_ok_iff.mpr hmove]
        exact ih.mpr ⟨next, hrest, hschema⟩

end Draft

end SchemaScript
