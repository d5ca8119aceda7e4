import Mathlib
import SchemaScript.Compile
import SchemaScript.Proofs.Munch

namespace SchemaScript

/-- Two outcomes of the same kind: both results, or both errors, that are related. -/
inductive Agree {ε δ α β : Type} (errors : ε → δ → Prop) (results : α → β → Prop) :
    Except ε α → Except δ β → Prop where
  | ok {a : α} {b : β} (h : results a b) : Agree errors results (.ok a) (.ok b)
  | error {e : ε} {d : δ} (h : errors e d) : Agree errors results (.error e) (.error d)

section Lockstep

variable (matched : Token → Token → Prop)

/-- The same fault, shown at tokens that belong together. `matched` says which tokens of two
runs do. -/
inductive ParseError.Alike : ParseError → ParseError → Prop where
  | shown {token token' : Token} (fault : Fault) (hmatched : matched token token') :
      Alike ⟨fault, token.position⟩ ⟨fault, token'.position⟩

/-- The same clause, up to the token of its name. -/
structure Clause.Alike (clause other : Clause) : Prop where
  table : clause.table = other.table
  column : clause.column = other.column
  arguments : clause.arguments = other.arguments
  name : matched clause.name other.name

/-- The same phase, up to the tokens that are kept in it. -/
inductive Phase.Alike : Phase → Phase → Prop where
  | top : Alike .top .top
  | settingKey : Alike .settingKey .settingKey
  | settingValue (key : String) : Alike (.settingValue key) (.settingValue key)
  | settingEnd (key value : String) : Alike (.settingEnd key value) (.settingEnd key value)
  | tableName : Alike .tableName .tableName
  | tableEnd (name : String) : Alike (.tableEnd name) (.tableEnd name)
  | body (table : Table) : Alike (.body table) (.body table)
  | columnType (table : Table) (name : String) :
      Alike (.columnType table name) (.columnType table name)
  | line (table : Table) (column : Column) : Alike (.line table column) (.line table column)
  | clause {clause other : Clause} (h : clause.Alike matched other) :
      Alike (.clause clause) (.clause other)
  | firstArgument {clause other : Clause} (h : clause.Alike matched other) :
      Alike (.firstArgument clause) (.firstArgument other)
  | nextArgument {clause other : Clause} (h : clause.Alike matched other) :
      Alike (.nextArgument clause) (.nextArgument other)
  | separator {clause other : Clause} {last last' : Token} (h : clause.Alike matched other)
      (hlast : matched last last') : Alike (.separator clause last) (.separator other last')

/-- The same draft, up to the tokens that its phase keeps. -/
structure Draft.Alike (draft other : Draft) : Prop where
  schema : draft.schema = other.schema
  log : draft.log = other.log
  phase : draft.phase.Alike matched other.phase

variable {matched} {token token' : Token} {clause clause' : Clause} {self other : Draft}

theorem Token.text_eq_of_label_eq (h : token.label = token'.label) : token.text = token'.text := by
  obtain ⟨hkind, hliteral⟩ := Token.label_eq_iff.mp h
  simp only [Token.label] at hkind hliteral
  simp only [Token.text, hkind, hliteral]

namespace Clause

theorem Alike.addArgument (h : clause.Alike matched clause') (argument : Argument) :
    (clause.addArgument argument).Alike matched (clause'.addArgument argument) where
  table := h.table
  column := h.column
  arguments := congrArg (· ++ [argument]) h.arguments
  name := h.name

/-- Attaching looks at the name of a clause, but not at its place. -/
theorem Alike.attach_eq (h : clause.Alike matched clause')
    (hname : clause.name.literal = clause'.name.literal) (schema : Schema) :
    clause.attach schema = clause'.attach schema := by
  unfold attach
  rw [h.table, h.column, h.arguments, hname]

end Clause

namespace Draft

theorem Alike.enter (h : self.Alike matched other) {phase phase' : Phase}
    (hphase : phase.Alike matched phase') :
    (self.enter phase).Alike matched (other.enter phase') :=
  ⟨h.schema, h.log, hphase⟩

theorem fail_alike {α β : Type} {results : α → β → Prop} (fault : Fault)
    (h : matched token token') :
    Agree (ParseError.Alike matched) results (fail fault token) (fail fault token') :=
  .error (.shown fault h)

variable (hlabel : ∀ {token token' : Token}, matched token token' → token.label = token'.label)
include hlabel

theorem kind_eq_of_matched (h : matched token token') : token'.kind = token.kind :=
  (Token.label_eq_iff.mp (hlabel h).symm).1

theorem literal_eq_of_matched (h : matched token token') : token'.literal = token.literal :=
  (Token.label_eq_iff.mp (hlabel h).symm).2

theorem unexpected_alike {α β : Type} {results : α → β → Prop} (h : matched token token') :
    Agree (ParseError.Alike matched) results (unexpected token) (unexpected token') := by
  unfold unexpected
  rw [Token.text_eq_of_label_eq (hlabel h)]
  exact fail_alike _ h

theorem atTop_alike (h : self.Alike matched other) (hmatched : matched token token') :
    Agree (ParseError.Alike matched) (Alike matched) (self.atTop token) (other.atTop token') := by
  unfold atTop
  rw [kind_eq_of_matched hlabel hmatched]
  split
  · exact .ok h
  · exact .ok h
  · exact .ok (h.enter .tableName)
  · exact .ok (h.enter .settingKey)
  · exact unexpected_alike hlabel hmatched

theorem atSettingKey_alike (h : self.Alike matched other) (hmatched : matched token token') :
    Agree (ParseError.Alike matched) (Alike matched) (self.atSettingKey token)
      (other.atSettingKey token') := by
  unfold atSettingKey
  rw [kind_eq_of_matched hlabel hmatched, literal_eq_of_matched hlabel hmatched]
  split
  · exact fail_alike _ hmatched
  split
  · exact fail_alike _ hmatched
  · exact .ok (h.enter (.settingValue _))

theorem atSettingValue_alike (h : self.Alike matched other) (hmatched : matched token token')
    (key : String) :
    Agree (ParseError.Alike matched) (Alike matched) (self.atSettingValue key token)
      (other.atSettingValue key token') := by
  unfold atSettingValue
  rw [kind_eq_of_matched hlabel hmatched, literal_eq_of_matched hlabel hmatched]
  split
  · exact .ok (h.enter (.settingEnd key _))
  · exact .ok (h.enter (.settingEnd key _))
  · exact fail_alike _ hmatched
  · exact fail_alike _ hmatched
  · exact unexpected_alike hlabel hmatched

theorem atSettingEnd_alike (h : self.Alike matched other) (hmatched : matched token token')
    (key value : String) :
    Agree (ParseError.Alike matched) (Alike matched) (self.atSettingEnd key value token)
      (other.atSettingEnd key value token') := by
  have hconfigure : (self.configure key value).Alike matched (other.configure key value) := by
    unfold Draft.configure
    rw [h.schema, h.log]
    exact ⟨rfl, rfl, .top⟩
  unfold atSettingEnd
  rw [kind_eq_of_matched hlabel hmatched]
  split
  · exact .ok hconfigure
  · exact .ok hconfigure
  · exact fail_alike _ hmatched

theorem atTableName_alike (h : self.Alike matched other) (hmatched : matched token token') :
    Agree (ParseError.Alike matched) (Alike matched) (self.atTableName token)
      (other.atTableName token') := by
  unfold atTableName
  rw [kind_eq_of_matched hlabel hmatched, literal_eq_of_matched hlabel hmatched, h.schema]
  split
  · split
    · exact fail_alike _ hmatched
    · exact .ok (h.enter (.tableEnd _))
  · exact fail_alike _ hmatched
  · exact fail_alike _ hmatched
  · exact fail_alike _ hmatched

theorem atTableEnd_alike (h : self.Alike matched other) (hmatched : matched token token')
    (name : String) :
    Agree (ParseError.Alike matched) (Alike matched) (self.atTableEnd name token)
      (other.atTableEnd name token') := by
  unfold atTableEnd
  rw [kind_eq_of_matched hlabel hmatched]
  split
  · exact .ok (h.enter (.body _))
  · exact fail_alike _ hmatched

theorem atBody_alike (h : self.Alike matched other) (hmatched : matched token token')
    (table : Table) :
    Agree (ParseError.Alike matched) (Alike matched) (self.atBody table token)
      (other.atBody table token') := by
  have hclose : (self.closeTable table).Alike matched (other.closeTable table) := by
    unfold Draft.closeTable
    rw [h.schema, h.log]
    exact ⟨rfl, rfl, .top⟩
  unfold atBody
  rw [kind_eq_of_matched hlabel hmatched, literal_eq_of_matched hlabel hmatched]
  split
  · exact .ok hclose
  · exact .ok h
  · exact fail_alike _ hmatched
  · exact fail_alike _ hmatched
  · split
    · exact fail_alike _ hmatched
    · exact .ok (h.enter (.columnType table _))
  · exact unexpected_alike hlabel hmatched

theorem atColumnType_alike (h : self.Alike matched other) (hmatched : matched token token')
    (table : Table) (name : String) :
    Agree (ParseError.Alike matched) (Alike matched) (self.atColumnType table name token)
      (other.atColumnType table name token') := by
  unfold atColumnType
  rw [kind_eq_of_matched hlabel hmatched, literal_eq_of_matched hlabel hmatched]
  split
  · exact .ok (h.enter (.line table _))
  · exact .ok (h.enter (.line table _))
  · exact fail_alike _ hmatched

theorem atLine_alike (h : self.Alike matched other) (hmatched : matched token token')
    (table : Table) (column : Column) :
    Agree (ParseError.Alike matched) (Alike matched) (self.atLine table column token)
      (other.atLine table column token') := by
  have hclose : (self.closeColumn table column).Alike matched (other.closeColumn table column) := by
    unfold Draft.closeColumn
    rw [h.schema, h.log]
    exact ⟨rfl, rfl, .body _⟩
  unfold atLine
  rw [kind_eq_of_matched hlabel hmatched]
  split
  · exact .ok hclose
  · exact fail_alike _ hmatched
  · exact .ok (h.enter (.clause ⟨rfl, rfl, rfl, hmatched⟩))
  · exact unexpected_alike hlabel hmatched

/-- The faults of a clause are shown at its name, which is matched too. -/
theorem closeClause_alike (h : self.Alike matched other) (hclause : clause.Alike matched clause') :
    Agree (ParseError.Alike matched) Eq (self.closeClause clause) (other.closeClause clause') := by
  unfold closeClause
  rw [hclause.attach_eq (literal_eq_of_matched hlabel hclause.name).symm, h.schema]
  split
  · exact .ok rfl
  · exact fail_alike _ hclause.name

theorem atClause_alike (h : self.Alike matched other) (hmatched : matched token token')
    (hclause : clause.Alike matched clause') :
    Agree (ParseError.Alike matched) (Alike matched) (self.atClause clause token)
      (other.atClause clause' token') := by
  unfold atClause
  rw [kind_eq_of_matched hlabel hmatched]
  split
  · exact .ok (h.enter (.firstArgument hclause))
  · have hclose := closeClause_alike hlabel h hclause
    generalize self.closeClause clause = closed at hclose ⊢
    generalize other.closeClause clause' = closed' at hclose ⊢
    cases hclose with
    | ok heq =>
      subst heq
      exact atLine_alike hlabel h hmatched _ _
    | error herror => exact .error herror

theorem endArguments_alike (h : self.Alike matched other) (hclause : clause.Alike matched clause') :
    Agree (ParseError.Alike matched) (Alike matched) (self.endArguments clause)
      (other.endArguments clause') := by
  have hclose := closeClause_alike hlabel h hclause
  unfold endArguments
  generalize self.closeClause clause = closed at hclose ⊢
  generalize other.closeClause clause' = closed' at hclose ⊢
  cases hclose with
  | ok heq =>
    subst heq
    exact .ok (h.enter (.line _ _))
  | error herror => exact .error herror

theorem atArgument_alike (h : self.Alike matched other) (hmatched : matched token token')
    (hclause : clause.Alike matched clause') :
    Agree (ParseError.Alike matched) (Alike matched) (self.atArgument clause token)
      (other.atArgument clause' token') := by
  unfold atArgument
  rw [kind_eq_of_matched hlabel hmatched, literal_eq_of_matched hlabel hmatched]
  split
  · exact .ok (h.enter (.separator (hclause.addArgument _) hmatched))
  · exact .ok (h.enter (.separator (hclause.addArgument _) hmatched))
  · exact unexpected_alike hlabel hmatched

theorem atFirstArgument_alike (h : self.Alike matched other) (hmatched : matched token token')
    (hclause : clause.Alike matched clause') :
    Agree (ParseError.Alike matched) (Alike matched) (self.atFirstArgument clause token)
      (other.atFirstArgument clause' token') := by
  unfold atFirstArgument
  rw [kind_eq_of_matched hlabel hmatched]
  split
  · exact endArguments_alike hlabel h hclause
  · exact atArgument_alike hlabel h hmatched hclause

theorem atSeparator_alike (h : self.Alike matched other) (hmatched : matched token token')
    (hclause : clause.Alike matched clause') {last last' : Token} (hlast : matched last last') :
    Agree (ParseError.Alike matched) (Alike matched) (self.atSeparator clause last token)
      (other.atSeparator clause' last' token') := by
  unfold atSeparator
  rw [kind_eq_of_matched hlabel hmatched, kind_eq_of_matched hlabel hlast]
  split
  · exact endArguments_alike hlabel h hclause
  · exact .ok (h.enter (.nextArgument hclause))
  · split
    · exact fail_alike _ hlast
    · exact unexpected_alike hlabel hmatched
  · exact unexpected_alike hlabel hmatched

/-- A step of one run is followed by the same step of the other. -/
theorem step_alike (h : self.Alike matched other) (hmatched : matched token token') :
    Agree (ParseError.Alike matched) (Alike matched) (self.step token) (other.step token') := by
  have hphase := h.phase
  unfold step
  generalize self.phase = phase at hphase ⊢
  generalize other.phase = phase' at hphase ⊢
  cases hphase with
  | top => exact atTop_alike hlabel h hmatched
  | settingKey => exact atSettingKey_alike hlabel h hmatched
  | settingValue key => exact atSettingValue_alike hlabel h hmatched key
  | settingEnd key value => exact atSettingEnd_alike hlabel h hmatched key value
  | tableName => exact atTableName_alike hlabel h hmatched
  | tableEnd name => exact atTableEnd_alike hlabel h hmatched name
  | body table => exact atBody_alike hlabel h hmatched table
  | columnType table name => exact atColumnType_alike hlabel h hmatched table name
  | line table column => exact atLine_alike hlabel h hmatched table column
  | clause hclause => exact atClause_alike hlabel h hmatched hclause
  | firstArgument hclause => exact atFirstArgument_alike hlabel h hmatched hclause
  | nextArgument hclause => exact atArgument_alike hlabel h hmatched hclause
  | separator hclause hlast => exact atSeparator_alike hlabel h hmatched hclause hlast

/-- Two runs over tokens that belong together write the same log and come to the
same end. -/
theorem run_alike {tokens tokens' : List Token} (h : self.Alike matched other)
    (hmatched : List.Forall₂ matched tokens tokens') :
    (self.run tokens).log = (other.run tokens').log ∧
      Agree (ParseError.Alike matched) Eq (self.run tokens).outcome
        (other.run tokens').outcome := by
  induction hmatched generalizing self other with
  | nil => exact ⟨h.log, .ok h.schema⟩
  | @cons token token' tokens tokens' hfirst _ ih =>
    have hstep := step_alike hlabel h hfirst
    unfold run
    generalize self.step token = next at hstep ⊢
    generalize other.step token' = next' at hstep ⊢
    cases hstep with
    | ok hnext => exact ih hnext
    | error herror => exact ⟨h.log, .error herror⟩

end Draft

end Lockstep

namespace Script

/-- Tokens of two scripts that have the same index and the same label. -/
def Matched (script other : Script) (token token' : Token) : Prop :=
  token.label = token'.label ∧
    ∃ index : Nat, script.toList[index]? = some token ∧ other.toList[index]? = some token'

theorem forall₂_matched {script other : Script}
    (h : script.toList.map Token.label = other.toList.map Token.label) :
    List.Forall₂ (script.Matched other) script.toList other.toList := by
  have hlength : script.toList.length = other.toList.length := by
    simpa using congrArg List.length h
  refine List.forall₂_iff_get.mpr ⟨hlength, ?_⟩
  intro index hindex hindex'
  have hlabel := congrArg (·[index]?) h
  simp only [List.getElem?_map, List.getElem?_eq_getElem hindex, List.getElem?_eq_getElem hindex',
    Option.map_some, Option.some.injEq] at hlabel
  exact ⟨hlabel, index, List.getElem?_eq_getElem hindex, List.getElem?_eq_getElem hindex'⟩

theorem toList_labels_eq {source other : String}
    (h : (ofText source).tokens.map Token.label = (ofText other).tokens.map Token.label) :
    (ofText source).toList.map Token.label = (ofText other).toList.map Token.label := by
  rw [ofText_toList_labels, ofText_toList_labels, h]

end Script

/-- The same error, except that a fault may have another place. The two places are
those of tokens with the same index. -/
inductive CompileError.Alike (script other : Script) : CompileError → CompileError → Prop where
  | parsing {index : Nat} {token token' : Token} (fault : Fault)
      (htoken : script.toList[index]? = some token)
      (hother : other.toList[index]? = some token') :
      Alike script other (.parsing ⟨fault, token.position⟩) (.parsing ⟨fault, token'.position⟩)
  | generation (error : GenerationError) :
      Alike script other (.generation error) (.generation error)

/-- The source texts compile alike: with the same log, and to the same SQL text or
with the same error. -/
def CompileAlike (source other : String) : Prop :=
  (compile source).log = (compile other).log ∧
    Agree (CompileError.Alike (.ofText source) (.ofText other)) Eq (compile source).outcome
      (compile other).outcome

theorem compileAlike_of_labels {source other : String}
    (h : (Script.ofText source).tokens.map Token.label =
      (Script.ofText other).tokens.map Token.label) : CompileAlike source other := by
  have hmatched := Script.forall₂_matched (Script.toList_labels_eq h)
  have hinitial : Draft.initial.Alike ((Script.ofText source).Matched (.ofText other)) .initial :=
    ⟨rfl, rfl, .top⟩
  obtain ⟨hlog, hparse⟩ := Draft.run_alike (fun hmatched => hmatched.1) hinitial hmatched
  unfold CompileAlike compile Report.bind Report.mapError Schema.parse Schema.ofScript
  generalize Draft.initial.run (Script.ofText source).toList = report at hlog hparse ⊢
  generalize Draft.initial.run (Script.ofText other).toList = report' at hlog hparse ⊢
  obtain ⟨log, outcome⟩ := report
  obtain ⟨log', outcome'⟩ := report'
  simp only at hlog hparse
  subst hlog
  cases hparse with
  | error herror =>
    obtain ⟨fault, _, index, htoken, hother⟩ := herror
    exact ⟨rfl, .error (.parsing fault htoken hother)⟩
  | @ok schema _ heq =>
    subst heq
    refine ⟨rfl, ?_⟩
    simp only [Except.mapError]
    cases schema.generate.outcome with
    | ok sql => exact .ok rfl
    | error error => exact .error (.generation error)

/-- Layout does not matter. Texts with the same tokens compile alike, whatever the
places of the tokens are. So do texts that are divided alike, whatever the gaps
between the tokens are and however the line breaks are written. -/
theorem compile_ignores_layout (source other : String) :
    ((Script.ofText source).tokens.map Token.label = (Script.ofText other).tokens.map Token.label →
      CompileAlike source other) ∧
    ∀ division division' : Division, division.Maximal → division'.Maximal →
      division.chars = source.toList → division'.chars = other.toList →
      division.labels = division'.labels → CompileAlike source other := by
  refine ⟨compileAlike_of_labels, ?_⟩
  intro division division' hmaximal hmaximal' hchars hchars' hlabels
  apply compileAlike_of_labels
  rw [← Script.labels_of_maximal hmaximal hchars, hlabels,
    Script.labels_of_maximal hmaximal' hchars']

/-- Dropped markers, tabs and the other line breaks leave the tokens as they are. -/
theorem compile_ignores_layout_of_table :
    ∃ division division' : Division, division.Maximal ∧ division'.Maximal ∧
      division.chars = "table a\n x int\nend".toList ∧
      division'.chars = "@ table\ta\r\n@\tx  int\rend\t".toList ∧
      division.labels = division'.labels ∧
      CompileAlike "table a\n x int\nend" "@ table\ta\r\n@\tx  int\rend\t" := by
  have htokens : (Script.ofText "table a\n x int\nend").tokens.map Token.label =
      (Script.ofText "@ table\ta\r\n@\tx  int\rend\t").tokens.map Token.label := by
    cbv
  obtain ⟨division, hmaximal, hchars, hlabels⟩ := Script.exists_division "table a\n x int\nend"
  obtain ⟨division', hmaximal', hchars', hlabels'⟩ :=
    Script.exists_division "@ table\ta\r\n@\tx  int\rend\t"
  have hsame : division.labels = division'.labels := hlabels.trans (htokens.trans hlabels'.symm)
  exact ⟨division, division', hmaximal, hmaximal', hchars, hchars', hsame,
    (compile_ignores_layout _ _).2 division division' hmaximal hmaximal' hchars hchars' hsame⟩

end SchemaScript
