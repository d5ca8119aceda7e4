import Mathlib
import SchemaScript.Proofs.Printing
import SchemaScript.Proofs.Stopping

namespace SchemaScript

/-- There are names enough for another table. -/
theorem exists_fresh_name (names : List String) : ∃ name, isName name ∧ name ∉ names := by
  -- Names of underscores only are no keywords, and one of them is longer than the others.
  let underscores (n : Nat) : String := String.ofList ('_' :: List.replicate n '_')
  have hinjective : underscores.Injective := by
    intro m n heq
    have hlength := congrArg String.length heq
    simpa [underscores] using hlength
  obtain ⟨name, ⟨n, rfl⟩, hfresh⟩ :=
    (Set.infinite_range_of_injective hinjective).exists_notMem_finset names.toFinset
  have hword : isWord (underscores n) :=
    isWord_ofList_cons.mpr ⟨by decide, fun d hd => List.eq_of_mem_replicate hd ▸ by decide⟩
  have hne (word : String) (hhead : word.toList.head? ≠ some '_') : underscores n ≠ word := by
    rintro rfl
    exact hhead (by simp [underscores])
  refine ⟨underscores n, ?_, by simpa using hfresh⟩
  simp [isName, hword, hne "table" (by decide), hne "end" (by decide), hne "set" (by decide)]

namespace Draft

/-- Some tokens that can be written lead from the draft to the end of a schema. -/
def Completable (self : Draft) : Prop :=
  ∃ labels : List Label, (∀ label ∈ labels, label.Writable) ∧
    ∀ (tokens : List Token) (eof : Token), tokens.map Token.label = labels → eof.kind = .eof →
      ∃ next, Reads self (tokens ++ [eof]) next

section Completable

variable {self next : Draft} {schema : Schema} {log : List Event} {table : Table}

theorem Completable.of_move {label : Label} (hwritable : label.Writable)
    (hmove : ∀ position, Move self.schema self.log ⟨label.kind, label.literal, position⟩ self.phase
      next) (h : next.Completable) : self.Completable := by
  obtain ⟨labels, hlabels, hreads⟩ := h
  refine ⟨label :: labels, List.forall_mem_cons.mpr ⟨hwritable, hlabels⟩, ?_⟩
  intro tokens eof htokens heof
  obtain ⟨token, rest, rfl, rfl, hrest⟩ := List.map_eq_cons_iff.mp htokens
  obtain ⟨last, hlast⟩ := hreads rest eof hrest heof
  exact ⟨last, .cons (hmove token.position) hlast⟩

theorem completable_top : Completable ⟨schema, log, .top⟩ := by
  refine ⟨[], by simp, ?_⟩
  intro tokens eof htokens heof
  obtain rfl := List.map_eq_nil_iff.mp htokens
  exact ⟨_, .single (.skipLine (.inr heof))⟩

theorem completable_settingEnd {key value : String} :
    Completable ⟨schema, log, .settingEnd key value⟩ :=
  .of_move Label.eol_writable (fun _ => .closeSetting (.inl rfl)) completable_top

theorem completable_settingValue {key : String} :
    Completable ⟨schema, log, .settingValue key⟩ :=
  .of_move (Label.identifier_writable (by decide : isName "x")) (fun _ => .giveValue (.inl rfl))
    completable_settingEnd

theorem completable_settingKey : Completable ⟨schema, log, .settingKey⟩ :=
  .of_move (Label.identifier_writable (by decide : isName "url"))
    (fun _ => .nameSetting rfl (.tail _ (.head _))) completable_settingValue

theorem completable_body : Completable ⟨schema, log, .body table⟩ := by
  have hwritable : Label.Writable ⟨.endWord, "end"⟩ := Label.writable_of_spells rfl (by simp)
  exact .of_move hwritable (fun _ => .closeTable rfl) completable_top

theorem completable_tableEnd {name : String} : Completable ⟨schema, log, .tableEnd name⟩ :=
  .of_move Label.eol_writable (fun _ => .openBody rfl) completable_body

theorem completable_tableName : Completable ⟨schema, log, .tableName⟩ := by
  obtain ⟨name, hname, hfresh⟩ := exists_fresh_name (schema.tables.map Table.name)
  exact .of_move (Label.identifier_writable hname)
    (fun _ => .nameTable rfl (Schema.table?_eq_none_iff.mpr hfresh)) completable_tableEnd

theorem completable_line {column : Column} : Completable ⟨schema, log, .line table column⟩ :=
  .of_move Label.eol_writable (fun _ => .closeColumn rfl) completable_body

theorem completable_columnType {name : String} :
    Completable ⟨schema, log, .columnType table name⟩ := by
  have hmove (position : Position) : Move schema log ⟨.identifier, "int", position⟩
      (.columnType table name) ⟨schema, log, .line table ⟨name, .named "int", []⟩⟩ :=
    .nameType rfl
  exact .of_move (Label.identifier_writable (by decide)) hmove completable_line

/-- A clause cannot always be completed, since its name may be unknown. -/
theorem completable_clause {clause : Clause} {column : Column}
    (hattach : clause.attach schema = .ok (table, column)) :
    Completable ⟨schema, log, .clause clause⟩ :=
  .of_move Label.eol_writable
    (fun _ => .closeClause (by simp [Label.eol]) hattach (.closeColumn rfl)) completable_body

/-- Outside of attributes everything can be completed. What is missing depends on the phase
alone and is never more than a few tokens. -/
theorem completable_of_pending?_eq_none (h : self.phase.pending? = none) :
    self.Completable := by
  obtain ⟨schema, log, phase⟩ := self
  cases phase with
  | top => exact completable_top
  | settingKey => exact completable_settingKey
  | settingValue key => exact completable_settingValue
  | settingEnd key value => exact completable_settingEnd
  | tableName => exact completable_tableName
  | tableEnd name => exact completable_tableEnd
  | body table => exact completable_body
  | columnType table name => exact completable_columnType
  | line table column => exact completable_line
  | clause pending | firstArgument pending | nextArgument pending | separator pending last =>
    cases h

/-- A line can be completed wherever an attribute can stand. -/
theorem Move.completable_of_attribute {token : Token} {phase : Phase}
    (h : Move schema log token phase next) (hkind : token.kind = .attributeName) :
    Completable ⟨schema, log, phase⟩ := by
  cases h with
  | openClause => exact completable_line
  | closeClause _ hattach => exact completable_clause hattach
  | firstArgument hargument | nextArgument hargument => simp [Token.argument?, hkind] at hargument
  | _ => simp_all

theorem Reads.completable_before_attribute {earlier rest : List Token} {name : Token}
    (h : Reads self (earlier ++ name :: rest) next) (hkind : name.kind = .attributeName) :
    ∃ middle, Reads self earlier middle ∧ middle.Completable := by
  obtain ⟨middle, hearlier, hlater⟩ := h.of_append
  cases hlater with
  | cons hmove _ => exact ⟨middle, hearlier, hmove.completable_of_attribute hkind⟩

end Completable

/-- An illegal token is never read. -/
theorem Move.kind_ne_illegal {token : Token} {schema : Schema} {log : List Event} {phase : Phase}
    {next : Draft} (h : Move schema log token phase next) : token.kind ≠ .illegal := by
  intro hkind
  induction h with
  | closeClause _ _ _ ih => exact ih
  | firstArgument hargument | nextArgument hargument => simp [Token.argument?, hkind] at hargument
  | _ => simp_all

theorem Reads.kind_ne_illegal {self next : Draft} {tokens : List Token}
    (h : Reads self tokens next) : ∀ token ∈ tokens, token.kind ≠ .illegal := by
  induction h with
  | nil => simp
  | cons hmove _ ih => exact List.forall_mem_cons.mpr ⟨hmove.kind_ne_illegal, ih⟩

end Draft

/-- The tokens leave open the arguments of the attribute that comes after `earlier`. -/
def ArgumentsOpen (earlier : List Token) (name : Token) (tokens : List Token) : Prop :=
  ∃ left given, tokens = earlier ++ name :: left :: given ∧ name.kind = .attributeName ∧
    left.kind = .leftParen ∧ ∀ token ∈ given, token.kind ≠ .rightParen

theorem ArgumentsOpen.concat {earlier tokens : List Token} {name token : Token}
    (h : ArgumentsOpen earlier name tokens) (hkind : token.kind ≠ .rightParen) :
    ArgumentsOpen earlier name (tokens ++ [token]) := by
  obtain ⟨left, given, rfl, hname, hleft, hgiven⟩ := h
  exact ⟨left, given ++ [token], by simp, hname, hleft,
    List.forall_mem_append.mpr ⟨hgiven, List.forall_mem_singleton.mpr hkind⟩⟩

/-- What the last tokens were, if an attribute is being read. -/
def Phase.After (tokens : List Token) : Phase → Prop
  | .clause pending =>
    pending.name.kind = .attributeName ∧ ∃ earlier, tokens = earlier ++ [pending.name]
  | .firstArgument pending => ∃ earlier, ArgumentsOpen earlier pending.name tokens
  | .nextArgument pending => ∃ earlier, ArgumentsOpen earlier pending.name tokens
  | .separator pending last =>
    ∃ earlier before, tokens = before ++ [last] ∧ last.kind ≠ .rightParen ∧
      ArgumentsOpen earlier pending.name before
  | _ => True

namespace Draft

variable {self next : Draft} {token : Token} {tokens : List Token}

theorem Move.after {schema : Schema} {log : List Event} {phase : Phase}
    (h : Move schema log token phase next) (hphase : phase.After tokens) :
    next.phase.After (tokens ++ [token]) := by
  induction h with
  | openClause hkind => exact ⟨hkind, tokens, rfl⟩
  | openArguments hkind =>
    obtain ⟨hname, earlier, rfl⟩ := hphase
    exact ⟨earlier, token, [], by simp, hname, hkind, by simp⟩
  | closeClause _ _ _ ih => exact ih trivial
  | firstArgument hargument | nextArgument hargument =>
    obtain ⟨earlier, hopen⟩ := hphase
    refine ⟨earlier, tokens, rfl, ?_, hopen⟩
    intro hkind
    simp [Token.argument?, hkind] at hargument
  | separate hkind =>
    obtain ⟨earlier, before, rfl, hlast, hopen⟩ := hphase
    exact ⟨earlier, (hopen.concat hlast).concat (by simp [hkind])⟩
  | _ => trivial

theorem Reads.after (h : Reads .initial tokens next) : next.phase.After tokens := by
  have hinitial : initial.phase.After [] := trivial
  exact h.keeps (motive := fun seen draft => draft.phase.After seen)
    (fun _ hdraft hmove => hmove.after hdraft) [] hinitial

section Faults

variable {error : ParseError}

/-- The error is shown at one of the tokens. All tokens before this one can be read.
Either they leave the arguments of an attribute open, or they can be completed. -/
def ShownAmong (tokens : List Token) (error : ParseError) : Prop :=
  ∃ before shown middle, before ++ [shown] <+: tokens ∧ shown.position = error.position ∧
    Reads .initial before middle ∧
    ((∃ earlier name, ArgumentsOpen earlier name before) ∨ middle.Completable)

private theorem shownAmong_of_name {earlier rest : List Token} {name : Token}
    (hreads : Reads .initial tokens self) (htokens : tokens = earlier ++ name :: rest)
    (hkind : name.kind = .attributeName) (hposition : error.position = name.position) :
    ShownAmong (tokens ++ [token]) error := by
  subst htokens
  obtain ⟨middle, hearlier, hcompletable⟩ := hreads.completable_before_attribute hkind
  exact ⟨earlier, name, middle, ⟨rest ++ [token], by simp⟩, hposition.symm, hearlier,
    .inr hcompletable⟩

/-- A run that comes to a fault shows it at the token that cannot be read, or at the
name or the last argument of the attribute before this token. -/
theorem Reads.shownAmong (hreads : Reads .initial tokens self)
    (h : self.step token = .error error) : ShownAmong (tokens ++ [token]) error := by
  have hafter := hreads.after
  have hhere (hposition : error.position = token.position)
      (hbefore : (∃ earlier name, ArgumentsOpen earlier name tokens) ∨ self.Completable) :
      ShownAmong (tokens ++ [token]) error :=
    ⟨tokens, token, self, List.prefix_rfl, hposition.symm, hreads, hbefore⟩
  obtain ⟨schema, log, phase⟩ := self
  cases phase with
  | clause pending =>
    obtain ⟨hkind, earlier, htokens⟩ := hafter
    simp only [step, atClause] at h
    split_ifs at h
    split at h
    next hclose =>
      exact hhere (position_of_atLine h)
        (.inr (completable_clause (closeClause_eq_ok_iff.mp hclose)))
    next hclose =>
      cases h
      exact shownAmong_of_name hreads htokens hkind (position_of_closeClause hclose)
  | firstArgument pending =>
    obtain ⟨earlier, hopen⟩ := hafter
    simp only [step, atFirstArgument] at h
    split_ifs at h
    · obtain ⟨left, given, htokens, hkind, _⟩ := hopen
      exact shownAmong_of_name hreads htokens hkind (position_of_endArguments h)
    · exact hhere (position_of_atArgument h) (.inl ⟨_, _, hopen⟩)
  | nextArgument pending =>
    obtain ⟨earlier, hopen⟩ := hafter
    exact hhere (position_of_atArgument h) (.inl ⟨_, _, hopen⟩)
  | separator pending last =>
    obtain ⟨earlier, before, rfl, hlast, hopen⟩ := hafter
    have hstillopen := hopen.concat hlast
    simp only [step, atSeparator] at h
    split at h
    · obtain ⟨left, given, htokens, hkind, _⟩ := hstillopen
      exact shownAmong_of_name hreads htokens hkind (position_of_endArguments h)
    · cases h
    · split_ifs at h <;> cases h
      · obtain ⟨middle, hbefore, _⟩ := hreads.of_append
        exact ⟨before, last, middle, List.prefix_append .., rfl, hbefore, .inl ⟨_, _, hopen⟩⟩
      · exact hhere rfl (.inl ⟨_, _, hstillopen⟩)
    · cases h
      exact hhere rfl (.inl ⟨_, _, hstillopen⟩)
  | _ => exact hhere (position_of_step h rfl) (.inr (completable_of_pending?_eq_none rfl))

end Faults

end Draft

namespace Division

variable {piece : Piece} {front back : List Piece} {last : List Char}

/-- What is skipped before the first of some pieces, or else before the end. -/
def gapOf (back : List Piece) (last : List Char) : List Char := back.head?.elim last Piece.gap

theorem before_length :
    before ⟨front ++ back, last⟩ front.length =
      front.flatMap Piece.chars ++ gapOf back last := by
  rw [before, List.take_left, List.getElem?_append_right (Nat.le_refl _), Nat.sub_self, gapOf,
    List.head?_eq_getElem?]

/-- Anything can follow the gap before a token. -/
theorem Maximal.gapBefore_nil (h : Maximal ⟨front ++ back, last⟩) :
    GapBefore [] (gapOf back last) := by
  cases back with
  | nil => exact h.last
  | cons piece back =>
    obtain ⟨hgap, hspans⟩ := h.pieces front piece back rfl
    exact hgap.nil_of_head? hspans.head?_not_blank

/-- The token before a cut may need a closing quote. It is then the last one of the
text, so that the quote can come after the gap as well as before it. -/
theorem Maximal.exists_closing (h : Maximal ⟨front ++ piece :: back, last⟩)
    (hkind : piece.label.kind ≠ .illegal) (rest : List Char) :
    ∃ closing, gapOf back last ++ closing = closing ++ gapOf back last ∧
      piece.label.Spans (piece.text ++ closing) (gapOf back last ++ ' ' :: rest) := by
  have hsplit : Maximal ⟨front ++ [piece] ++ back, last⟩ := by simpa using h
  have hgap := hsplit.gapBefore_nil
  rcases (h.pieces front piece back rfl).2.before_gap hkind with hspans | ⟨hrest, quote, hspans⟩
  · refine ⟨[], by simp, (List.append_nil piece.text).symm ▸ hspans _ ?_⟩
    cases hcases : gapOf back last with
    | nil =>
      rintro c ⟨⟩
      exact .inl rfl
    | cons c gap =>
      rintro _ ⟨⟩
      exact (hgap [] c gap hcases).imp_right And.left
  · have hnil : gapOf back last = [] := by
      cases back with
      | nil => exact hrest
      | cons next back => exact (List.append_eq_nil_iff.mp (chars_cons.symm.trans hrest)).1
    exact ⟨[quote], by simp [hnil], hspans _⟩

/-- The first tokens are those of the first pieces. -/
theorem exists_front {p : Position} {pieces : List Piece} {before after : List Token}
    {token eof : Token} (h : tokensFrom p pieces ++ [eof] = before ++ token :: after) :
    ∃ front back, pieces = front ++ back ∧ tokensFrom p front = before := by
  have hle : before.length ≤ pieces.length := by
    have hlength : pieces.length + 1 = before.length + (after.length + 1) := by
      simpa using congrArg List.length h
    omega
  refine ⟨_, _, (List.take_append_drop before.length pieces).symm, ?_⟩
  rw [← List.take_append_drop before.length pieces, tokensFrom_append, List.append_assoc] at h
  exact (List.append_inj h (by simp [hle])).1

/-- A text can be cut before any of its tokens and go on with other tokens. -/
theorem Maximal.exists_tokens_cut {labels : List Label} (h : Maximal ⟨front ++ back, last⟩)
    (hkind : ∀ piece ∈ front, piece.label.kind ≠ .illegal)
    (hlabels : ∀ label ∈ labels, label.Writable) :
    ∃ more later,
      (Script.ofText (String.ofList (before ⟨front ++ back, last⟩ front.length) ++ more)).tokens =
        tokensFrom .start front ++ later ∧ later.map Token.label = labels := by
  obtain ⟨other, hother, hotherchars, hotherlabels⟩ :=
    Script.exists_division (String.ofList (' ' :: Label.write labels))
  have hwritten : Written (' ' :: Label.write labels) labels :=
    .blank rfl (Label.written_write hlabels)
  rw [Script.ofText_labels (by simpa using hwritten)] at hotherlabels
  rw [String.toList_ofList] at hotherchars
  have hindent := hother.indent h.gapBefore_nil.of_nil
  have hindentlabels : (other.indent (gapOf back last)).labels = labels :=
    indent_labels.trans hotherlabels
  rw [before_length]
  rcases List.eq_nil_or_concat' front with rfl | ⟨front, piece, rfl⟩
  · have hscript : Script.ofText (String.ofList (gapOf back last) ++
        String.ofList (' ' :: Label.write labels)) = (other.indent (gapOf back last)).script :=
      hindent.ofText_eq (by simp [hotherchars])
    exact ⟨_, _, congrArg Script.tokens hscript, tokensFrom_labels.trans hindentlabels⟩
  · rw [List.append_assoc, List.singleton_append] at h
    obtain ⟨closing, hcomm, hspans⟩ :=
      h.exists_closing (hkind piece (by simp)) (Label.write labels)
    have hsource : (String.ofList ((front ++ [piece]).flatMap Piece.chars ++ gapOf back last) ++
        String.ofList (closing ++ ' ' :: Label.write labels)).toList =
        front.flatMap Piece.chars ++ piece.chars ++
          (closing ++ (other.indent (gapOf back last)).chars) := by
      rw [indent_chars, hotherchars, ← List.append_assoc closing, ← hcomm]
      simp
    obtain ⟨later, htokens, hlater⟩ :=
      h.exists_tokens_resume closing hindent (by simpa [hotherchars] using hspans) hsource
    exact ⟨_, later, htokens, hlater.trans hindentlabels⟩

end Division

namespace Schema

/-- Something can be added to the characters that makes them the text of a schema. -/
def Completable (chars : List Char) : Prop :=
  ∃ more schema, (parse (String.ofList chars ++ more)).outcome = .ok schema

/-- A text can be completed up to any token before which its tokens can be completed. -/
theorem completable_of_reads {source : String} {division : Division} {before after : List Token}
    {token : Token} {draft : Draft} (hmaximal : division.Maximal)
    (hchars : division.chars = source.toList)
    (hsplit : (Script.ofText source).toList = before ++ token :: after)
    (hreads : Draft.Reads .initial before draft) (hdraft : draft.Completable) :
    Completable (division.before before.length) := by
  obtain ⟨labels, hlabels, hcompletes⟩ := hdraft
  obtain ⟨pieces, last⟩ := division
  rw [hmaximal.ofText_eq hchars, Script.toList, Division.script] at hsplit
  obtain ⟨front, back, rfl, hfront⟩ := Division.exists_front hsplit
  have hkind : ∀ piece ∈ front, piece.label.kind ≠ .illegal := by
    intro piece hmem
    have hlabel : piece.label ∈ before.map Token.label := by
      rw [← hfront, Division.tokensFrom_labels]
      exact List.mem_map_of_mem hmem
    obtain ⟨read, hread, hpiece⟩ := List.mem_map.mp hlabel
    rw [← hpiece]
    exact hreads.kind_ne_illegal read hread
  obtain ⟨more, later, htokens, hlater⟩ := hmaximal.exists_tokens_cut hkind hlabels
  have hlength : front.length = before.length := by rw [← hfront, Division.tokensFrom_length]
  rw [hlength, hfront] at htokens
  obtain ⟨next, hnext⟩ := hcompletes later _ hlater (Script.ofText_eof_kind _)
  refine ⟨more, next.schema, Draft.run_outcome_eq_ok_iff.mpr ⟨next, ?_, rfl⟩⟩
  rw [Script.toList, htokens, List.append_assoc]
  exact hreads.append hnext

/-- Errors are not reported late. An error is shown at one token of the text, and the
text before this token can be completed. If the token stands in the arguments of an
attribute, this is true of the text before the attribute. -/
theorem parse_error_prompt {source : String} {error : ParseError}
    (h : (parse source).outcome = .error error) :
    ∃ (division : Division) (before : List Token) (token : Token) (after : List Token),
      division.Maximal ∧ division.chars = source.toList ∧
      (Script.ofText source).toList = before ++ token :: after ∧
      token.position = error.position ∧
      (∀ other ∈ before ++ after, other.position ≠ error.position) ∧
      (∀ earlier name, ArgumentsOpen earlier name before →
        Completable (division.before earlier.length)) ∧
      ((∀ earlier name, ¬ ArgumentsOpen earlier name before) →
        Completable (division.before before.length)) := by
  obtain ⟨division, hmaximal, hchars, _⟩ := Script.exists_division source
  obtain ⟨seen, failing, rest, draft, hseen, hreads, hfails⟩ :=
    Draft.run_outcome_eq_error_iff.mp h
  obtain ⟨before, shown, middle, ⟨later, hlater⟩, hposition, hbefore, hcases⟩ :=
    hreads.shownAmong hfails
  have hsplit : (Script.ofText source).toList = before ++ shown :: (later ++ rest) := by
    rw [hseen, ← List.singleton_append, ← List.append_assoc, ← hlater]
    simp
  refine ⟨division, before, shown, later ++ rest, hmaximal, hchars, hsplit, hposition, ?_, ?_, ?_⟩
  · have hincreasing := Script.toList_increasing source
    rw [hsplit, List.pairwise_append, List.pairwise_cons] at hincreasing
    obtain ⟨_, ⟨hafter, _⟩, hahead⟩ := hincreasing
    rw [← hposition, List.forall_mem_append]
    exact ⟨fun other hmem => (hahead other hmem shown List.mem_cons_self).ne,
      fun other hmem => (hafter other hmem).ne.symm⟩
  · rintro earlier name ⟨left, given, rfl, hkind, _⟩
    obtain ⟨draft, hearlier, hdraft⟩ := hbefore.completable_before_attribute hkind
    rw [List.append_assoc] at hsplit
    exact completable_of_reads hmaximal hchars hsplit hearlier hdraft
  · intro hclosed
    refine completable_of_reads hmaximal hchars hsplit hbefore (hcases.resolve_left ?_)
    rintro ⟨earlier, name, hopen⟩
    exact hclosed earlier name hopen

/-- The string that is open at the end is at fault, and not the end. It stands in the
arguments of its attribute. -/
theorem parse_error_prompt_of_open_string :
    (parse "table a\n x int @default(\"b").outcome = .error ⟨.unterminatedString, ⟨2, 17⟩⟩ ∧
    ∃ (division : Division) (before : List Token) (token : Token) (after : List Token),
      division.Maximal ∧ division.chars = "table a\n x int @default(\"b".toList ∧
      (Script.ofText "table a\n x int @default(\"b").toList = before ++ token :: after ∧
      token.position = ⟨2, 17⟩ ∧
      (∀ other ∈ before ++ after, other.position ≠ ⟨2, 17⟩) ∧
      (∀ earlier name, ArgumentsOpen earlier name before →
        Completable (division.before earlier.length)) ∧
      ((∀ earlier name, ¬ ArgumentsOpen earlier name before) →
        Completable (division.before before.length)) := by
  have hparse : (parse "table a\n x int @default(\"b").outcome =
      .error ⟨.unterminatedString, ⟨2, 17⟩⟩ := by
    cbv
  exact ⟨hparse, parse_error_prompt hparse⟩

end Schema

end SchemaScript
