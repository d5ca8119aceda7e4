import Mathlib
import SchemaScript.Proofs.Indexing
import SchemaScript.Proofs.Stopping

namespace SchemaScript

/-- A schema that is being read from a text. The tokens are not collected first but cut off
one by one, so that what is unread can be measured after each of them. -/
structure Parsing where
  draft : Draft
  cursor : Cursor

/-- The loops of reading: over the items of a schema, the lines of a table, the clauses of
a column and the arguments of a clause. -/
inductive Loop where
  | items
  | lines
  | clauses
  | arguments
deriving DecidableEq

/-- The loop of which a turn begins in a phase. A clause without arguments has no token at
its end, so that the token after its name may begin the next turn over clauses. -/
def Phase.turn? : Phase → Option Loop
  | .top => some .items
  | .body _ => some .lines
  | .line _ _ | .clause _ => some .clauses
  | .firstArgument _ | .nextArgument _ => some .arguments
  | _ => none

/-- The number of loops around a loop. -/
def Loop.depth : Loop → Nat
  | .items => 0
  | .lines => 1
  | .clauses => 2
  | .arguments => 3

/-- The innermost loop that goes on in a phase. -/
def Phase.loop : Phase → Loop
  | .top | .settingKey | .settingValue _ | .settingEnd _ _ | .tableName | .tableEnd _ => .items
  | .body _ | .columnType _ _ => .lines
  | .line _ _ | .clause _ => .clauses
  | .firstArgument _ | .nextArgument _ | .separator _ _ => .arguments

/-- The loop has been left in the phase. -/
def Loop.LeftIn (self : Loop) (phase : Phase) : Prop := phase.loop.depth < self.depth

namespace Parsing

/-- Nothing has been read. -/
def ofText (source : String) : Parsing := ⟨.initial, .ofText source⟩

/-- The text has ended where no item is open. -/
structure Finished (parsing : Parsing) : Prop where
  top : parsing.draft.phase = .top
  ended : parsing.cursor.next.1.kind = .eof

/-- The next token cannot be read. -/
def Fails (self : Parsing) (error : ParseError) : Prop :=
  self.draft.step self.cursor.next.1 = .error error

/-- Reading goes on with one more token. -/
structure Advances (parsing next : Parsing) : Prop where
  unfinished : ¬ parsing.Finished
  draft : parsing.draft.step parsing.cursor.next.1 = .ok next.draft
  cursor : next.cursor = parsing.cursor.next.2

/-- `self.Ends steps report rest` says that so many tokens are read, that the report is
known then, and that the rest of the text is unread. -/
inductive Ends : Parsing → Nat → Report ParseError Schema → List Char → Prop where
  | finished {self : Parsing} (hfinished : self.Finished) :
      Ends self 0 ⟨self.draft.log, .ok self.draft.schema⟩ self.cursor.next.2.rest
  | fails {self : Parsing} {error : ParseError} (hfails : self.Fails error) :
      Ends self 0 ⟨self.draft.log, .error error⟩ self.cursor.next.2.rest
  | advances {self next : Parsing} {steps : Nat} {report : Report ParseError Schema}
      {rest : List Char} (hadvance : self.Advances next) (hends : Ends next steps report rest) :
      Ends self (steps + 1) report rest

/-- `self.Turns loop again` says how a turn of the loop comes to its end: the next turn
begins, or there is none, since the loop is left or all reading ends. -/
inductive Turns (loop : Loop) : Parsing → Option Parsing → Prop where
  | finished {self : Parsing} (hfinished : self.Finished) : Turns loop self none
  | fails {self : Parsing} {error : ParseError} (hfails : self.Fails error) : Turns loop self none
  | leaves {self next : Parsing} (hadvance : self.Advances next)
      (hleft : loop.LeftIn next.draft.phase) : Turns loop self none
  | again {self next : Parsing} (hadvance : self.Advances next)
      (hturn : next.draft.phase.turn? = some loop) : Turns loop self (some next)
  | inside {self next : Parsing} {again : Option Parsing} (hadvance : self.Advances next)
      (hleft : ¬ loop.LeftIn next.draft.phase) (hturn : next.draft.phase.turn? ≠ some loop)
      (hturns : Turns loop next again) : Turns loop self again

end Parsing

/-- The end token is read at the end of the text. Every other token takes a part of the
text off its front. -/
theorem Cursor.next_progress (self : Cursor) :
    self.next.1.kind = .eof ∧ self.next.2.rest = [] ∨
      self.next.1.kind ≠ .eof ∧ ∃ taken, taken ≠ [] ∧ self.rest = taken ++ self.next.2.rest := by
  rcases self.next_spans with ⟨hkind, _⟩ | ⟨gap, text, hsplit, _, hspans⟩
  · obtain ⟨p, hnext⟩ := next_of_eof hkind
    exact .inl ⟨hkind, by rw [hnext]⟩
  · refine .inr ⟨hspans.kind_ne_eof, gap ++ text, ?_, by rw [hsplit, List.append_assoc]⟩
    exact List.append_ne_nil_of_right_ne_nil gap hspans.text_ne_nil

theorem Cursor.next_rest_length_le (self : Cursor) :
    self.next.2.rest.length ≤ self.rest.length := by
  rcases self.next_progress with ⟨_, hrest⟩ | ⟨hkind, _⟩
  · rw [hrest]
    exact Nat.zero_le _
  · exact Nat.le_of_lt (self.next_rest_length_lt hkind)

/-- The end of the text is read between items, or it closes a setting. -/
theorem Draft.Move.of_eof {schema : Schema} {log : List Event} {token : Token} {phase : Phase}
    {next : Draft} (h : Move schema log token phase next) (hkind : token.kind = .eof) :
    phase = .top ∨ ∃ key value, phase = .settingEnd key value := by
  induction h with
  | skipLine => exact .inl rfl
  | closeSetting => exact .inr ⟨_, _, rfl⟩
  | closeClause _ _ _ ih => simp at ih
  | firstArgument hargument | nextArgument hargument => simp [Token.argument?, hkind] at hargument
  | _ => simp_all

namespace Parsing

variable {self next : Parsing} {loop : Loop}

theorem finished_or_fails_or_advances (self : Parsing) :
    self.Finished ∨ (∃ error, self.Fails error) ∨ ∃ next, self.Advances next := by
  by_cases hfinished : self.Finished
  · exact .inl hfinished
  · cases hstep : self.draft.step self.cursor.next.1 with
    | error error => exact .inr (.inl ⟨error, hstep⟩)
    | ok draft => exact .inr (.inr ⟨⟨draft, self.cursor.next.2⟩, hfinished, hstep, rfl⟩)

namespace Advances

theorem move (h : self.Advances next) :
    Draft.Move self.draft.schema self.draft.log self.cursor.next.1 self.draft.phase next.draft :=
  Draft.step_eq_ok_iff.mp h.draft

theorem length_le (h : self.Advances next) : next.cursor.rest.length ≤ self.cursor.rest.length := by
  rw [h.cursor]
  exact self.cursor.next_rest_length_le

theorem length_lt (h : self.Advances next) (hkind : self.cursor.next.1.kind ≠ .eof) :
    next.cursor.rest.length < self.cursor.rest.length := by
  rw [h.cursor]
  exact self.cursor.next_rest_length_lt hkind

/-- Reading that goes on at the end of the text is finished then. -/
theorem finished (h : self.Advances next) (hkind : self.cursor.next.1.kind = .eof) :
    next.Finished := by
  refine ⟨h.move.phase_of_eof hkind, ?_⟩
  rw [h.cursor, Cursor.next_next_of_eof hkind]
  exact hkind

/-- No turn begins with the end of the text. -/
theorem kind_ne_eof (h : self.Advances next) (hturn : self.draft.phase.turn? = some loop) :
    self.cursor.next.1.kind ≠ .eof := by
  intro hkind
  rcases h.move.of_eof hkind with htop | ⟨key, value, hphase⟩
  · exact h.unfinished ⟨htop, hkind⟩
  · rw [hphase] at hturn
    cases hturn

end Advances

/-- A turn that is going on does not give back what has been read. -/
theorem Turns.length_le {again : Option Parsing} (h : Turns loop self again) :
    ∀ next ∈ again, next.cursor.rest.length ≤ self.cursor.rest.length := by
  induction h with
  | finished | fails | leaves => simp
  | again hadvance =>
    rintro next ⟨⟩
    exact hadvance.length_le
  | inside hadvance _ _ _ ih => exact fun next hnext => (ih next hnext).trans hadvance.length_le

/-- A turn takes at least the token that it begins with. -/
theorem Turns.length_lt (h : Turns loop self (some next))
    (hturn : self.draft.phase.turn? = some loop) :
    next.cursor.rest.length < self.cursor.rest.length := by
  cases h with
  | again hadvance => exact hadvance.length_lt (hadvance.kind_ne_eof hturn)
  | inside hadvance _ _ hturns =>
    exact (hturns.length_le next rfl).trans_lt (hadvance.length_lt (hadvance.kind_ne_eof hturn))

/-- Every turn comes to its end. -/
theorem exists_turns (loop : Loop) (self : Parsing) : ∃ again, Turns loop self again := by
  induction hlength : self.cursor.rest.length using Nat.strongRecOn generalizing self with
  | ind length ih =>
    rcases self.finished_or_fails_or_advances with hfinished | ⟨error, hfails⟩ | ⟨next, hadvance⟩
    · exact ⟨none, .finished hfinished⟩
    · exact ⟨none, .fails hfails⟩
    by_cases hleft : loop.LeftIn next.draft.phase
    · exact ⟨none, .leaves hadvance hleft⟩
    by_cases hturn : next.draft.phase.turn? = some loop
    · exact ⟨some next, .again hadvance hturn⟩
    have hturns : ∃ again, Turns loop next again := by
      by_cases hkind : self.cursor.next.1.kind = .eof
      · exact ⟨none, .finished (hadvance.finished hkind)⟩
      · have hshorter := hadvance.length_lt hkind
        exact ih _ (by omega) next rfl
    obtain ⟨again, hturns⟩ := hturns
    exact ⟨again, .inside hadvance hleft hturn hturns⟩

theorem Finished.run_eq (h : self.Finished) :
    self.draft.run [self.cursor.next.1] = ⟨self.draft.log, .ok self.draft.schema⟩ := by
  obtain ⟨⟨schema, log, phase⟩, cursor⟩ := self
  obtain rfl : phase = .top := h.top
  have hstep : Draft.step ⟨schema, log, .top⟩ cursor.next.1 = .ok ⟨schema, log, .top⟩ :=
    Draft.step_eq_ok_iff.mpr (.skipLine (.inr h.ended))
  rw [Draft.run, hstep]
  rfl

theorem Finished.rest_eq_nil (h : self.Finished) : self.cursor.next.2.rest = [] := by
  obtain ⟨p, hnext⟩ := Cursor.next_of_eof h.ended
  rw [hnext]

theorem Fails.run_eq {error : ParseError} (h : self.Fails error) (tokens : List Token) :
    self.draft.run (self.cursor.next.1 :: tokens) = ⟨self.draft.log, .error error⟩ := by
  rw [Draft.run, h]

theorem Advances.run_eq (h : self.Advances next) (tokens : List Token) :
    self.draft.run (self.cursor.next.1 :: tokens) = next.draft.run tokens := by
  rw [Draft.run, h.draft]

/-- Reading ends with the report of the tokens that are ahead, and it reads no more tokens
than there are characters, but for the end. -/
theorem exists_ends {tokens : List Token} {last : Cursor} (h : self.cursor.Yields tokens last)
    (heof : last.next.1.kind = .eof) :
    ∃ steps rest, self.Ends steps (self.draft.run (tokens ++ [last.next.1])) rest ∧
      steps ≤ self.cursor.rest.length + 1 ∧
      ∀ schema, (self.draft.run (tokens ++ [last.next.1])).outcome = .ok schema → rest = [] := by
  induction tokens generalizing self with
  | nil =>
    cases h
    rw [List.nil_append]
    rcases self.finished_or_fails_or_advances with hfinished | ⟨error, hfails⟩ | ⟨next, hadvance⟩
    · rw [hfinished.run_eq]
      exact ⟨0, _, .finished hfinished, Nat.zero_le _, fun _ _ => hfinished.rest_eq_nil⟩
    · rw [hfails.run_eq]
      exact ⟨0, _, .fails hfails, Nat.zero_le _, by simp⟩
    · have hfinished := hadvance.finished heof
      rw [hadvance.run_eq]
      exact ⟨1, _, .advances hadvance (.finished hfinished), Nat.le_add_left 1 _,
        fun _ _ => hfinished.rest_eq_nil⟩
  | cons token tokens ih =>
    obtain _ | @⟨_, rest, _, _, _, hnext, hkind, htail⟩ := h
    obtain rfl : self.cursor.next.1 = token := by rw [hnext]
    obtain rfl : self.cursor.next.2 = rest := by rw [hnext]
    rw [List.cons_append]
    rcases self.finished_or_fails_or_advances with hfinished | ⟨error, hfails⟩ | ⟨next, hadvance⟩
    · exact absurd hfinished.ended hkind
    · rw [hfails.run_eq]
      exact ⟨0, _, .fails hfails, Nat.zero_le _, by simp⟩
    · rw [← hadvance.cursor] at htail
      obtain ⟨steps, rest, hends, hsteps, hrest⟩ := ih htail
      have hshorter := hadvance.length_lt hkind
      rw [hadvance.run_eq]
      exact ⟨steps + 1, rest, .advances hadvance hends, by omega, hrest⟩

end Parsing

/-- No text makes reading loop. Every token but the end takes a part of the text, the end
is read only where nothing is left, every turn of every loop comes to its end, and
what is unread is shorter when the loop begins anew. So reading a text ends, after no
more tokens than it has characters and the end, and a schema is read only when all of
the text has been. -/
theorem Schema.parse_progresses (source : String) :
    (∀ cursor : Cursor, cursor.next.1.kind = .eof ∧ cursor.next.2.rest = [] ∨
      cursor.next.1.kind ≠ .eof ∧
        ∃ taken, taken ≠ [] ∧ cursor.rest = taken ++ cursor.next.2.rest) ∧
    (∀ loop (parsing : Parsing), parsing.draft.phase.turn? = some loop →
      (∃ again, parsing.Turns loop again) ∧
      ∀ next, parsing.Turns loop (some next) →
        next.cursor.rest.length < parsing.cursor.rest.length) ∧
    ∃ steps rest, (Parsing.ofText source).Ends steps (parse source) rest ∧
      steps ≤ source.length + 1 ∧ ∀ schema, (parse source).outcome = .ok schema → rest = [] := by
  obtain ⟨tokens, last, hyields, heof⟩ := (Cursor.ofText source).exists_yields
  have hparse : parse source = Draft.initial.run (tokens ++ [last.next.1]) := by
    rw [parse, Script.ofText_eq_of_yields hyields heof]
    rfl
  refine ⟨Cursor.next_progress, fun loop parsing hturn => ?_, ?_⟩
  · exact ⟨parsing.exists_turns loop, fun next hturns => hturns.length_lt hturn⟩
  · rw [hparse]
    exact Parsing.exists_ends hyields heof

/-- A turn over an argument, a marker that is skipped and a comma, before a string that is
never closed. -/
theorem Schema.parse_progresses_of_arguments :
    ∃ parsing next : Parsing, parsing.cursor = .ofText "\"a\"@ ,\"b" ∧
      parsing.draft.phase.turn? = some .arguments ∧ parsing.Turns .arguments (some next) ∧
      next.cursor.rest.length < parsing.cursor.rest.length := by
  let clause : Clause := ⟨.empty "t", ⟨"c", .raw, []⟩, ⟨.attributeName, "default", .start⟩, []⟩
  let parsing : Parsing := ⟨⟨.initial, [], .firstArgument clause⟩, .ofText "\"a\"@ ,\"b"⟩
  let middle : Parsing :=
    ⟨⟨.initial, [], .separator (clause.addArgument (.text "a")) ⟨.string, "a", .start⟩⟩,
      parsing.cursor.next.2⟩
  let next : Parsing :=
    ⟨⟨.initial, [], .nextArgument (clause.addArgument (.text "a"))⟩, middle.cursor.next.2⟩
  have hfirst : parsing.Advances middle := ⟨by rintro ⟨⟨⟩, _⟩, by cbv, rfl⟩
  have hsecond : middle.Advances next := ⟨by rintro ⟨⟨⟩, _⟩, by cbv, rfl⟩
  have hturns : parsing.Turns .arguments (some next) :=
    .inside hfirst (Nat.lt_irrefl 3) (by decide) (.again hsecond rfl)
  have hshorter := ((parse_progresses "").2.1 .arguments parsing rfl).2 next hturns
  exact ⟨parsing, next, rfl, rfl, hturns, hshorter⟩

end SchemaScript
