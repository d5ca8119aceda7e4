import Mathlib
import SchemaScript.Proofs.Acceptance
import SchemaScript.Proofs.ForeignKeys
import SchemaScript.Proofs.Layout
import SchemaScript.Proofs.Quoting
import SchemaScript.Proofs.Stopping

namespace SchemaScript

section Conditions

variable {earlier later : List TableTree}

theorem ClauseTree.Admissible.mono {self : ClauseTree} (h : self.Admissible earlier)
    (hsubset : earlier ⊆ later) : self.Admissible later := by
  obtain ⟨declared, hdeclared, htarget⟩ := h
  refine ⟨declared, hdeclared, fun target key hreference => ?_⟩
  obtain ⟨table, hmem, hname, hkey⟩ := htarget target key hreference
  exact ⟨table, hsubset hmem, hname, hkey⟩

/-- The side conditions are kept when more tables come before. -/
theorem TableTree.Admissible.mono {self : TableTree} (h : self.Admissible earlier)
    (hsubset : earlier ⊆ later) : self.Admissible later where
  distinct := h.distinct
  columns := fun column hmem =>
    { clauses := fun clause hclause => ((h.columns column hmem).clauses clause hclause).mono hsubset
      distinct := (h.columns column hmem).distinct
      actions := (h.columns column hmem).actions }

namespace Item

variable {items others : List Item}

@[simp]
theorem tables_append : tables (items ++ others) = tables items ++ tables others :=
  List.filterMap_append

@[simp]
theorem settings_append : settings (items ++ others) = settings items ++ settings others :=
  List.filterMap_append

/-- Items with tables of different names can stand one after the other. -/
theorem Admissible.append (h : Admissible items) (hothers : Admissible others)
    (hdisjoint : List.Disjoint ((Item.tables items).map TableTree.name)
      ((Item.tables others).map TableTree.name)) :
    Admissible (items ++ others) where
  keys := by
    rw [settings_append, List.forall_mem_append]
    exact ⟨h.keys, hothers.keys⟩
  distinct := by
    rw [tables_append, List.map_append]
    exact h.distinct.append hothers.distinct hdisjoint
  tables := by
    rw [tables_append]
    refine h.tables.append fun before table after hsplit => ?_
    exact (hothers.tables before table after hsplit).mono (List.subset_append_right _ _)

end Item

theorem LinesRule.append {tokens more : List Token} {items others : List Item}
    (h : LinesRule tokens items) (hmore : LinesRule more others) :
    LinesRule (tokens ++ more) (items ++ others) := by
  induction hmore with
  | nil => simpa using h
  | blank _ heol ih =>
    rw [← List.append_assoc]
    exact ih.blank heol
  | table _ hlast ih =>
    rw [← List.append_assoc, ← List.append_assoc]
    exact ih.table hlast
  | setting _ hlast heol ih =>
    rw [← List.append_assoc tokens, ← List.append_assoc items]
    exact ih.setting hlast heol

theorem LinesRule.append_source {tokens more : List Token} {items others : List Item}
    (h : LinesRule tokens items) (hmore : SourceRule more others) :
    SourceRule (tokens ++ more) (items ++ others) := by
  cases hmore with
  | lines hlines => exact .lines (h.append hlines)
  | unended hlines hlast =>
    rw [← List.append_assoc, ← List.append_assoc]
    exact .unended (h.append hlines) hlast

end Conditions

namespace Configuration

variable {self : Configuration} {key value : String}

/-- No key has two values. -/
theorem get?_eq_some_iff : self.get? key = some value ↔ (key, value) ∈ self.entries := by
  have hmem {found : String} (h : self.get? key = some found) : (key, found) ∈ self.entries := by
    obtain ⟨before, after, hsplit, _⟩ := List.lookup_eq_some_iff.mp h
    simp [hsplit]
  refine ⟨hmem, fun h => ?_⟩
  cases hfound : self.get? key with
  | none =>
    have hne := List.lookup_eq_none_iff.mp hfound _ h
    simp at hne
  | some found =>
    have heq : (key, found) = (key, value) :=
      List.inj_on_of_nodup_map self.keys_nodup (hmem hfound) h rfl
    rw [(Prod.mk.inj heq).2]

theorem provider_insert :
    (self.insert key value).provider = if key = "provider" then value else self.provider := by
  unfold provider
  split
  next hkey =>
    have hfound : (self.insert key value).get? "provider" = some value :=
      get?_eq_some_iff.mpr (mem_insert_iff.mpr (.inl (by rw [hkey])))
    rw [hfound]
    rfl
  next hkey =>
    have hsame : (self.insert key value).get? "provider" = self.get? "provider" := by
      refine Option.ext fun found => ?_
      rw [get?_eq_some_iff, get?_eq_some_iff, mem_insert_iff]
      simp [Ne.symm hkey]
    rw [hsame]

/-- Settings make the same provider of configurations with the same provider. -/
theorem provider_foldl_insert {other : Configuration} (h : self.provider = other.provider)
    (settings : List (String × String)) :
    (settings.foldl (fun made setting => made.insert setting.1 setting.2) self).provider =
      (settings.foldl (fun made setting => made.insert setting.1 setting.2) other).provider := by
  induction settings generalizing self other with
  | nil => exact h
  | cons setting rest ih =>
    apply ih
    rw [provider_insert, provider_insert, h]

theorem provider_ofSettings_append {settings more : List (String × String)}
    (h : (ofSettings settings).provider = "sqlite") :
    (ofSettings (settings ++ more)).provider = (ofSettings more).provider := by
  rw [ofSettings, List.foldl_append]
  exact provider_foldl_insert h more

end Configuration

namespace Draft

variable {matched : Token → Token → Prop} {self other next : Draft} {tokens tokens' : List Token}

/-- Tokens that belong together are read alike. -/
theorem Reads.alike
    (hlabel : ∀ {token token' : Token}, matched token token' → token.label = token'.label)
    (h : Reads self tokens next) (hself : self.Alike matched other)
    (hmatched : List.Forall₂ matched tokens tokens') :
    ∃ next', Reads other tokens' next' ∧ next.Alike matched next' := by
  induction h generalizing other tokens' with
  | nil =>
    cases hmatched
    exact ⟨other, .nil other, hself⟩
  | @cons self middle next token tokens hmove _ ih =>
    cases hmatched with
    | @cons _ token' _ rest hfirst hrest =>
      have hstep := step_alike hlabel hself hfirst
      rw [step_eq_ok_iff.mpr hmove] at hstep
      generalize hstep' : other.step token' = outcome at hstep
      cases hstep with
      | @ok _ middle' hmiddle =>
        obtain ⟨next', hreads, hnext⟩ := ih hmiddle hrest
        exact ⟨next', .cons (step_eq_ok_iff.mp hstep') hreads, hnext⟩

/-- Tokens that differ from those of a whole text only in their places derive what the
text says. -/
theorem Reads.derives_of_labels {eof : Token} (h : Reads .initial (tokens ++ [eof]) next)
    (heof : eof.kind = .eof) (hkinds : ∀ token ∈ tokens', token.kind ≠ .eof)
    (hlabels : tokens'.map Token.label = tokens.map Token.label) :
    ∃ items, SourceRule tokens' items ∧ Item.Describes items next.schema := by
  have hmatched : List.Forall₂ (fun token token' => token.label = token'.label)
      (tokens ++ [eof]) (tokens' ++ [eof]) := by
    have heq : List.Forall₂ Eq ((tokens ++ [eof]).map Token.label)
        ((tokens' ++ [eof]).map Token.label) := by
      simp [hlabels]
    simpa only [List.forall₂_map_left_iff, List.forall₂_map_right_iff] using heq
  obtain ⟨next', hreads, hnext⟩ := h.alike id ⟨rfl, rfl, .top⟩ hmatched
  obtain ⟨middle, hreads, hend⟩ := hreads.of_append
  cases hend with
  | cons hmove hnil =>
    cases hnil
    rw [hnext.schema]
    exact (hreads.derived .initial hkinds).source heof hmove

/-- A blank line at the beginning of a text says nothing. -/
theorem Reads.of_cons_eol {eol : Token} (h : Reads .initial (eol :: tokens) next)
    (hkind : eol.kind = .eol) : Reads .initial tokens next := by
  cases h with
  | @cons _ middle _ _ _ hmove hreads =>
    have hmove : Move .initial [] eol .top middle := hmove
    cases hmove with
    | skipLine => exact hreads
    | openTable hword | openSetting hword => simp [hkind] at hword

end Draft

namespace Schema

variable {source : String} {schema : Schema} {last : Token}

/-- A text that ends with a line break is read up to the end of an item. -/
theorem parse_derives_lines (hlast : (Script.ofText source).tokens.getLast? = some last)
    (hkind : last.kind = .eol) (h : (parse source).outcome = .ok schema) :
    ∃ items, LinesRule (Script.ofText source).tokens items ∧ Item.Describes items schema := by
  obtain ⟨next, hreads, rfl⟩ := Draft.run_outcome_eq_ok_iff.mp h
  obtain ⟨middle, hreads, hend⟩ := hreads.of_append
  obtain ⟨complete, pending, items, hsplit, hlines, hdescribes, hpending⟩ := hreads.derived .initial
    fun token hmem => (Script.ofText_tokens_spelled source token hmem).2
  have heof := Script.ofText_eof_kind source
  have hphase := hreads.phase_of_eol hlast hkind
  obtain ⟨schema, log, phase⟩ := middle
  cases hend with
  | cons hmove hnil =>
    cases hnil
    rcases hphase with rfl | ⟨table, rfl⟩
    · cases hpending
      cases hmove with
      | skipLine =>
        rw [List.nil_append, List.append_nil] at hsplit
        exact ⟨items, hsplit ▸ hlines, hdescribes⟩
      | openTable hword | openSetting hword => simp [heof] at hword
    · cases hmove <;> simp_all

/-- Tokens with the labels of a text derive what the text says, also if a line break at
its beginning is not among them. -/
theorem parse_derives_of_labels {tokens : List Token} (h : (parse source).outcome = .ok schema)
    (hkinds : ∀ token ∈ tokens, token.kind ≠ .eof)
    (hlabels : tokens.map Token.label = (Script.ofText source).tokens.map Token.label ∨
      ⟨.eol, ""⟩ :: tokens.map Token.label = (Script.ofText source).tokens.map Token.label) :
    ∃ items, SourceRule tokens items ∧ Item.Describes items schema := by
  obtain ⟨next, hreads, rfl⟩ := Draft.run_outcome_eq_ok_iff.mp h
  have heof := Script.ofText_eof_kind source
  rcases hlabels with hlabels | hlabels
  · exact hreads.derives_of_labels heof hkinds hlabels
  · obtain ⟨eol, rest, hrest, heol, hlabels⟩ := List.map_eq_cons_iff.mp hlabels.symm
    rw [Script.toList, hrest] at hreads
    have hreads := hreads.of_cons_eol (Token.label_eq_iff.mp heol).1
    exact hreads.derives_of_labels heof hkinds hlabels.symm

/-- The schema of two texts that are put together has the tables of both. Its provider
is the one of the second text, if the first has the default one. -/
theorem parse_append {more : String} {other : Schema}
    (hlast : (Script.ofText source).tokens.getLast? = some last) (hkind : last.kind = .eol)
    (h : (parse source).outcome = .ok schema) (hmore : (parse more).outcome = .ok other)
    (hdisjoint : List.Disjoint (schema.tables.map Table.name) (other.tables.map Table.name)) :
    ∃ whole, (parse (source ++ more)).outcome = .ok whole ∧
      whole.tables = schema.tables ++ other.tables ∧
      (schema.configuration.provider = "sqlite" →
        whole.configuration.provider = other.configuration.provider) := by
  obtain ⟨items, hlines, hdescribes⟩ := parse_derives_lines hlast hkind h
  obtain ⟨later, htokens, hlabels⟩ := Script.exists_tokens_append hlast hkind more
  have hkinds : ∀ token ∈ later, token.kind ≠ .eof := by
    intro token hmem
    exact (Script.ofText_tokens_spelled (source ++ more) token (by simp [htokens, hmem])).2
  obtain ⟨others, hrule, hothers⟩ := parse_derives_of_labels hmore hkinds hlabels
  have hwell := parse_wellFormed h
  have hotherwell := parse_wellFormed hmore
  have hadmissible : Item.Admissible (items ++ others) := by
    refine (hdescribes.admissible hwell).append (hothers.admissible hotherwell) ?_
    rwa [hdescribes.table_names, hothers.table_names]
  obtain ⟨whole, hwhole, hwholedescribes⟩ :=
    exists_parse_of_derivation (htokens ▸ hlines.append_source hrule) hadmissible
  refine ⟨whole, hwhole, ?_, ?_⟩
  · have htables := hwholedescribes.tables
    rw [Item.tables_append] at htables
    refine TableTree.Describes.tables_unique htables (List.rel_append hdescribes.tables
      hothers.tables) (parse_wellFormed hwhole).references ?_
    exact List.forall_mem_append.mpr ⟨hwell.references, hotherwell.references⟩
  · intro hprovider
    rw [hdescribes.configuration] at hprovider
    rw [hwholedescribes.configuration, hothers.configuration, Item.settings_append,
      Configuration.provider_ofSettings_append hprovider]

theorem statements_ne_nil {statements : List CreateTable}
    (h : schema.statements.outcome = .ok statements) : statements ≠ [] := by
  obtain ⟨_, hnonempty, hdefines⟩ := statements_eq_ok_iff.mp h
  rintro rfl
  exact hnonempty (List.forall₂_nil_left_iff.mp hdefines)

end Schema

/-- Scripts are joined by the blank line that stands between statements. -/
theorem CreateTable.script_append {statements others : List CreateTable} (h : statements ≠ [])
    (hothers : others ≠ []) :
    script (statements ++ others) = script statements ++ "\n" ++ script others := by
  obtain ⟨first, rest, rfl⟩ := List.exists_cons_of_ne_nil h
  obtain ⟨second, later, rfl⟩ := List.exists_cons_of_ne_nil hothers
  rw [List.cons_append, script_cons, script_cons, script_cons]
  simp [String.append_assoc]

/-- A table of the name is declared in the text. -/
def Declares (source name : String) : Prop :=
  ∃ schema, (Schema.parse source).outcome = .ok schema ∧ name ∈ schema.tables.map Table.name

/-- Compilation is modular. Texts that compile and have no table in common compile
together to the SQL text of the one and then that of the other, if the first one
ends with a line break. -/
theorem compile_append {first second sql sql' : String} {last : Token}
    (hlast : (Script.ofText first).tokens.getLast? = some last) (hkind : last.kind = .eol)
    (hfirst : (compile first).outcome = .ok sql) (hsecond : (compile second).outcome = .ok sql')
    (hdisjoint : ∀ name, Declares first name → ¬ Declares second name) :
    (compile (first ++ second)).outcome = .ok (sql ++ "\n" ++ sql') := by
  obtain ⟨schema, statements, hparse, hstatements, rfl⟩ := compile_outcome_eq_ok_iff.mp hfirst
  obtain ⟨other, statements', hparse', hstatements', rfl⟩ := compile_outcome_eq_ok_iff.mp hsecond
  obtain ⟨hprovider, hnonempty, hdefines⟩ := Schema.statements_eq_ok_iff.mp hstatements
  obtain ⟨hprovider', hnonempty', hdefines'⟩ := Schema.statements_eq_ok_iff.mp hstatements'
  obtain ⟨whole, hwhole, htables, hwholeprovider⟩ := Schema.parse_append hlast hkind hparse hparse'
    fun name hmem hmem' => hdisjoint name ⟨schema, hparse, hmem⟩ ⟨other, hparse', hmem'⟩
  rw [← CreateTable.script_append (Schema.statements_ne_nil hstatements)
    (Schema.statements_ne_nil hstatements')]
  refine compile_outcome_eq_ok_iff.mpr ⟨whole, statements ++ statements', hwhole, ?_, rfl⟩
  refine Schema.statements_eq_ok_iff.mpr ⟨(hwholeprovider hprovider).trans hprovider', ?_, ?_⟩
  · simp [htables, hnonempty]
  · rw [htables]
    exact List.rel_append hdefines hdefines'

/-- The line break after the first text may even be cut in two. -/
theorem compile_append_across_line_break :
    (compile "table a\n x int\nend\r").outcome =
        .ok "CREATE TABLE a (\n\tx INTEGER NOT NULL,\n);\n" ∧
      (compile "\ntable b\n y int\nend").outcome =
        .ok "CREATE TABLE b (\n\ty INTEGER NOT NULL,\n);\n" ∧
      (compile ("table a\n x int\nend\r" ++ "\ntable b\n y int\nend")).outcome =
        .ok ("CREATE TABLE a (\n\tx INTEGER NOT NULL,\n);\n" ++ "\n" ++
          "CREATE TABLE b (\n\ty INTEGER NOT NULL,\n);\n") := by
  have hlast : (Script.ofText "table a\n x int\nend\r").tokens.getLast? =
      some ⟨.eol, "", ⟨3, 4⟩⟩ := by
    cbv
  have hparse : (Schema.parse "table a\n x int\nend\r").outcome =
      .ok ⟨.initial, [⟨"a", [⟨"x", .named "int", []⟩], []⟩]⟩ := by
    cbv
  have hparse' : (Schema.parse "\ntable b\n y int\nend").outcome =
      .ok ⟨.initial, [⟨"b", [⟨"y", .named "int", []⟩], []⟩]⟩ := by
    cbv
  have hfirst : (compile "table a\n x int\nend\r").outcome =
      .ok "CREATE TABLE a (\n\tx INTEGER NOT NULL,\n);\n" :=
    compile_outcome_eq_ok_iff.mpr
      ⟨_, [⟨"a", [⟨"x", "INTEGER", false, none, false, false⟩], []⟩], hparse, by decide +kernel,
        by decide +kernel⟩
  have hsecond : (compile "\ntable b\n y int\nend").outcome =
      .ok "CREATE TABLE b (\n\ty INTEGER NOT NULL,\n);\n" :=
    compile_outcome_eq_ok_iff.mpr
      ⟨_, [⟨"b", [⟨"y", "INTEGER", false, none, false, false⟩], []⟩], hparse', by decide +kernel,
        by decide +kernel⟩
  refine ⟨hfirst, hsecond, compile_append hlast rfl hfirst hsecond ?_⟩
  rintro name ⟨schema, hschema, hmem⟩ ⟨other, hother, hmem'⟩
  rw [hparse, Except.ok.injEq] at hschema
  rw [hparse', Except.ok.injEq] at hother
  subst hschema hother
  simp_all

end SchemaScript
