import Mathlib
import SchemaScript.Proofs.Reading
import SchemaScript.Proofs.Splicing

namespace SchemaScript

/-- The attribute that is being read. -/
def Phase.pending? : Phase → Option Clause
  | .clause pending | .firstArgument pending | .nextArgument pending | .separator pending _ =>
    some pending
  | _ => none

namespace Draft

variable {self next : Draft} {token : Token} {tokens : List Token} {error : ParseError}

/-- A run fails with the fault of the first token that cannot be read. What comes after
that token is not looked at. -/
theorem run_outcome_eq_error_iff :
    (self.run tokens).outcome = .error error ↔
      ∃ before token after draft, tokens = before ++ token :: after ∧ Reads self before draft ∧
        draft.step token = .error error := by
  induction tokens generalizing self with
  | nil => simp [run]
  | cons token tokens ih =>
    rw [run]
    constructor
    · intro h
      split at h
      next middle hstep =>
        obtain ⟨before, failing, after, draft, rfl, hreads, hfails⟩ := ih.mp h
        exact ⟨token :: before, failing, after, draft, rfl,
          .cons (step_eq_ok_iff.mp hstep) hreads, hfails⟩
      next hstep =>
        cases h
        exact ⟨[], token, tokens, self, rfl, .nil self, hstep⟩
    · rintro ⟨before, failing, after, draft, hsplit, hreads, hfails⟩
      cases hreads with
      | nil =>
        cases hsplit
        rw [hfails]
      | @cons _ middle _ first before hmove hreads =>
        cases hsplit
        rw [step_eq_ok_iff.mpr hmove]
        exact ih.mpr ⟨before, failing, after, draft, rfl, hreads, hfails⟩

/-- A line end leaves a draft between two lines. -/
theorem Move.phase_of_eol {schema : Schema} {log : List Event} {phase : Phase}
    (h : Move schema log token phase next) (hkind : token.kind = .eol) :
    next.phase = .top ∨ ∃ table, next.phase = .body table := by
  induction h with
  | skipLine | closeSetting => exact .inl rfl
  | openBody | skipBodyLine | closeColumn => exact .inr ⟨_, rfl⟩
  | closeClause _ _ _ ih => exact ih
  | firstArgument hargument | nextArgument hargument => simp [Token.argument?, hkind] at hargument
  | _ => simp_all

/-- The end of a source text is read where no table is open. -/
theorem Move.phase_of_eof {schema : Schema} {log : List Event} {phase : Phase}
    (h : Move schema log token phase next) (hkind : token.kind = .eof) : next.phase = .top := by
  induction h with
  | skipLine | closeSetting | closeTable => rfl
  | closeClause _ _ _ ih => exact ih
  | firstArgument hargument | nextArgument hargument => simp [Token.argument?, hkind] at hargument
  | _ => simp_all

theorem Reads.phase_of_eol (h : Reads self tokens next) (hlast : tokens.getLast? = some token)
    (hkind : token.kind = .eol) : next.phase = .top ∨ ∃ table, next.phase = .body table := by
  obtain ⟨before, rfl⟩ := List.getLast?_eq_some_iff.mp hlast
  obtain ⟨middle, _, hend⟩ := h.of_append
  cases hend with
  | cons hmove hnil =>
    cases hnil
    exact hmove.phase_of_eol hkind

section Shown

variable {clause : Clause} {table : Table} {column : Column}

theorem position_of_closeClause (h : self.closeClause clause = .error error) :
    error.position = clause.name.position := by
  unfold closeClause at h
  split at h
  · cases h
  · cases h
    rfl

theorem position_of_endArguments (h : self.endArguments clause = .error error) :
    error.position = clause.name.position := by
  unfold endArguments at h
  split at h
  next => cases h
  next hclose =>
    cases h
    exact position_of_closeClause hclose

theorem position_of_atArgument (h : self.atArgument clause token = .error error) :
    error.position = token.position := by
  unfold atArgument at h
  split at h <;> cases h
  rfl

theorem position_of_atLine (h : self.atLine table column token = .error error) :
    error.position = token.position := by
  unfold atLine at h
  split at h <;> cases h <;> rfl

/-- Outside of attributes a fault is shown at the token that cannot be read. -/
theorem position_of_step (h : self.step token = .error error)
    (hphase : self.phase.pending? = none) : error.position = token.position := by
  obtain ⟨schema, log, phase⟩ := self
  cases phase with
  | top =>
    simp only [step, atTop] at h
    split at h <;> cases h
    rfl
  | settingKey =>
    simp only [step, atSettingKey] at h
    split_ifs at h <;> cases h <;> rfl
  | settingValue key =>
    simp only [step, atSettingValue] at h
    split at h <;> cases h <;> rfl
  | settingEnd key value =>
    simp only [step, atSettingEnd] at h
    split at h <;> cases h
    rfl
  | tableName =>
    simp only [step, atTableName] at h
    split at h
    · split_ifs at h
      cases h
      rfl
    all_goals
      cases h
      rfl
  | tableEnd name =>
    simp only [step, atTableEnd] at h
    split at h <;> cases h
    rfl
  | body table =>
    simp only [step, atBody] at h
    split at h
    case h_5 =>
      split_ifs at h
      cases h
      rfl
    all_goals cases h <;> rfl
  | columnType table name =>
    simp only [step, atColumnType] at h
    split at h <;> cases h
    rfl
  | line table column => exact position_of_atLine h
  | clause pending | firstArgument pending | nextArgument pending | separator pending last =>
    cases hphase

end Shown

end Draft

/-- The first error is final. A text that ends with a line break and is refused for
something before its end is refused for the same thing whatever is added. -/
theorem Schema.parse_error_final {source : String} {last : Token} {error : ParseError}
    (hlast : (Script.ofText source).tokens.getLast? = some last) (hkind : last.kind = .eol)
    (h : (parse source).outcome = .error error)
    (hend : error.position ≠ (Script.ofText source).eof.position) (more : String) :
    (parse (source ++ more)).outcome = .error error := by
  obtain ⟨later, htokens, _⟩ := Script.exists_tokens_append hlast hkind more
  obtain ⟨before, token, after, draft, hsplit, hreads, hfails⟩ :=
    Draft.run_outcome_eq_error_iff.mp h
  rcases List.eq_nil_or_concat' after with rfl | ⟨after, eof, rfl⟩
  · -- The run has come to the end, where only the end itself can be at fault.
    obtain ⟨rfl, htoken⟩ := List.append_inj' hsplit rfl
    obtain rfl : (Script.ofText source).eof = token := List.singleton_inj.mp htoken
    have hphase : draft.phase.pending? = none := by
      rcases hreads.phase_of_eol hlast hkind with htop | ⟨table, hbody⟩
      · rw [htop]
        rfl
      · rw [hbody]
        rfl
    exact absurd (Draft.position_of_step hfails hphase) hend
  · have hinit : (Script.ofText source).tokens = before ++ token :: after := by
      rw [Script.toList, ← List.cons_append, ← List.append_assoc] at hsplit
      exact (List.append_inj' hsplit rfl).1
    refine Draft.run_outcome_eq_error_iff.mpr
      ⟨before, token, after ++ later ++ [(Script.ofText (source ++ more)).eof], draft, ?_, hreads,
        hfails⟩
    simp [Script.toList, htokens, hinit]

/-- An unknown attribute is not made known by the end of its table. The line feed that
is added joins the last carriage return. -/
theorem Schema.parse_error_final_of_attribute :
    (parse "table a\n x int @foo\r").outcome = .error ⟨.unknownAttribute "foo", ⟨2, 8⟩⟩ ∧
      (parse ("table a\n x int @foo\r" ++ "\nend")).outcome =
        .error ⟨.unknownAttribute "foo", ⟨2, 8⟩⟩ := by
  have hlast : (Script.ofText "table a\n x int @foo\r").tokens.getLast? =
      some ⟨.eol, "", ⟨2, 12⟩⟩ := by
    cbv
  have hparse : (parse "table a\n x int @foo\r").outcome =
      .error ⟨.unknownAttribute "foo", ⟨2, 8⟩⟩ := by
    cbv
  have hend : (Script.ofText "table a\n x int @foo\r").eof.position = ⟨3, 1⟩ := by cbv
  exact ⟨hparse, parse_error_final hlast rfl hparse (by rw [hend]; decide) "\nend"⟩

end SchemaScript
