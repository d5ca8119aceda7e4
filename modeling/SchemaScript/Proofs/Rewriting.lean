import Mathlib
import SchemaScript.Proofs.ClauseOrder

namespace SchemaScript

/-- An attribute clause as it stands in a text, with the gaps before its tokens. -/
structure ClauseText where
  pieces : List Piece
  tree : ClauseTree
  derived : ClauseRule (Division.tokensFrom .start pieces) tree

/-- A text that is cut into pieces, with one of its column lines marked, so that the clauses
of the line can be put into another order. -/
structure ColumnLine where
  place : LinePlace
  front : List Piece
  clauses : List ClauseText
  back : List Piece
  last : List Char
  opens : place.Opens (Division.tokensFrom .start front)
  closes : place.Closes (Division.tokensFrom .start back)
  maximal : Division.Maximal ⟨front ++ (clauses.flatMap ClauseText.pieces ++ back), last⟩

namespace ColumnLine

/-- The marked line as it is written. -/
def tree (self : ColumnLine) : ColumnTree :=
  ⟨self.place.name, self.place.type, self.clauses.map ClauseText.tree⟩

/-- The pieces of the text, with other clauses on the line. -/
def pieces (self : ColumnLine) (order : List ClauseText) : List Piece :=
  self.front ++ (order.flatMap ClauseText.pieces ++ self.back)

/-- The text with other clauses on the line. Every clause takes its gaps along. -/
def rewrite (self : ColumnLine) (order : List ClauseText) : String :=
  String.ofList (Division.chars ⟨self.pieces order, self.last⟩)

/-- The text as it is. -/
def source (self : ColumnLine) : String := self.rewrite self.clauses

/-- The kinds and literals of the tokens, with other clauses on the line. -/
def labels (self : ColumnLine) (order : List ClauseText) : List Label :=
  (self.pieces order).map Piece.label

/-- The error is shown in the text at the first action of the line, and the reference that
the action is about comes later. -/
def ErrorAtAction (self : ColumnLine) (order : List ClauseText) (text : String)
    (error : ParseError) : Prop :=
  ∃ earlier clause later, order = earlier ++ clause :: later ∧
    (∀ other ∈ earlier, other.tree.name ∉ ["reference", "onDelete", "onUpdate"]) ∧
    (∃ other ∈ later, other.tree.name = "reference") ∧
    ∃ before token after occasion, (Script.ofText text).tokens = before ++ token :: after ∧
      before.map Token.label =
        (self.front ++ earlier.flatMap ClauseText.pieces).map Piece.label ∧
      token.label = ⟨.attributeName, clause.tree.name⟩ ∧
      clause.tree.name = (Attribute.Kind.action occasion).name ∧
      error = ⟨.referenceRequired (.action occasion), token.position⟩

end ColumnLine

/-- A word, a parenthesis or a closed literal stays what it is before anything that does
not go on with a word. -/
theorem Label.Spans.of_endsWord {self : Label} {text rest rest' : List Char}
    (h : self.Spans text rest)
    (hkind : self.kind ∈ [Token.Kind.identifier, .raw, .attributeName, .rightParen])
    (hne : rest ≠ []) (hends : EndsWord rest') : self.Spans text rest' := by
  cases h with
  | identifier hname => exact .identifier hname hends
  | attributeName hname => exact .attributeName hname hends
  | closed hquote hfree => exact .closed hquote hfree
  | unclosed => exact absurd rfl hne
  | punctuation hmark => exact .punctuation hmark
  | keyword hword => exact .keyword hword hends
  | _ => simp at hkind

/-- Neither an attribute nor a line break goes on with a word. -/
theorem Label.Spans.endsWord {self : Label} {text rest : List Char} (h : self.Spans text rest)
    (hkind : self.kind = .attributeName ∨ self.kind = .eol) (more : List Char) :
    EndsWord (text ++ more) := by
  cases h with
  | lineFeed | returnAndFeed | carriageReturn | attributeName => exact endsWord_cons (by decide)
  | keyword hword => rcases hkind with rfl | rfl <;> simp at hword
  | closed hquote | unclosed hquote => rcases hkind with rfl | rfl <;> simp at hquote
  | punctuation hmark => rcases hkind with rfl | rfl <;> simp at hmark
  | _ => simp at hkind

/-- No gap goes on with a word. -/
theorem GapBefore.endsWord {gap rest : List Char} (h : GapBefore rest gap) (hne : gap ≠ [])
    (more : List Char) : EndsWord (gap ++ more) := by
  obtain ⟨c, gap, rfl⟩ := List.exists_cons_of_ne_nil hne
  have hc : (c = ' ' ∨ c = '\t') ∨ c = '@' := by
    simpa [isBlank] using (h [] c gap rfl).imp_right And.left
  refine endsWord_cons ?_
  rcases hc with (rfl | rfl) | rfl <;> decide

namespace Division

variable {front back : List Piece} {piece : Piece} {last : List Char} {other : Division}

theorem exists_cons_of_tokensFrom {p : Position} {token : Token} {rest : List Token}
    (h : tokensFrom p front = token :: rest) :
    ∃ piece more, front = piece :: more ∧ piece.label = token.label := by
  cases front with
  | nil => cases h
  | cons piece more =>
    cases h
    exact ⟨piece, more, rfl, rfl⟩

theorem exists_concat_of_tokensFrom {p : Position} {token : Token} {before : List Token}
    (h : tokensFrom p front = before ++ [token]) :
    ∃ more piece, front = more ++ [piece] ∧ piece.label = token.label := by
  rcases List.eq_nil_or_concat' front with rfl | ⟨more, piece, rfl⟩
  · simp [tokensFrom] at h
  · rw [tokensFrom_append] at h
    obtain ⟨_, hlast⟩ := List.append_inj' h rfl
    cases hlast
    exact ⟨more, piece, rfl, rfl⟩

theorem Maximal.of_append (h : Maximal ⟨front ++ back, last⟩) : Maximal ⟨back, last⟩ where
  pieces := fun before piece after hsplit =>
    h.pieces (front ++ before) piece after (by simp [show back = _ from hsplit])
  last := h.last

/-- After such a token a text can go on as another text. -/
theorem Maximal.go_on (h : Maximal ⟨front ++ piece :: back, last⟩)
    (hkind : piece.label.kind ∈ [Token.Kind.identifier, .raw, .attributeName, .rightParen])
    (hne : chars ⟨back, last⟩ ≠ []) (hother : other.Maximal) (hends : EndsWord other.chars) :
    Maximal ⟨front ++ piece :: other.pieces, other.last⟩ := by
  obtain ⟨_, hspans⟩ := h.pieces front piece back rfl
  have hspans : piece.label.Spans (piece.text ++ []) other.chars := by
    rw [List.append_nil]
    exact hspans.of_endsWord hkind hne hends
  simpa [Piece.lengthen] using h.resume hother hspans

theorem Maximal.endsWord (h : Maximal ⟨piece :: back, last⟩)
    (hkind : piece.label.kind = .attributeName ∨ piece.label.kind = .eol) :
    EndsWord (chars ⟨piece :: back, last⟩) := by
  obtain ⟨hgap, hspans, _⟩ := maximal_cons.mp h
  rw [chars_cons]
  by_cases hempty : piece.gap = []
  · rw [hempty, List.nil_append]
    exact hspans.endsWord hkind _
  · exact hgap.endsWord hempty _

end Division

section Clauses

variable {tokens : List Token} {pieces : List Piece} {clauses : List ClauseTree} {tree : ClauseTree}

theorem ClauseRule.first_kind (h : ClauseRule tokens tree) :
    ∃ first rest, tokens = first :: rest ∧ first.kind = .attributeName := by
  cases h with
  | bare hname | empty hname | filled hname => exact ⟨_, _, rfl, hname⟩

theorem ClauseRule.last_kind (h : ClauseRule tokens tree) :
    ∃ before last, tokens = before ++ [last] ∧
      (last.kind = .attributeName ∨ last.kind = .rightParen) := by
  cases h with
  | @bare name hname => exact ⟨[], name, rfl, .inl hname⟩
  | @empty name left right _ _ hright => exact ⟨[name, left], right, rfl, .inr hright⟩
  | filled _ _ _ hright => exact ⟨_, _, rfl, .inr hright⟩

/-- Pieces with the labels of clauses are clauses. -/
theorem ClausesRule.exists_texts (h : ClausesRule tokens clauses)
    (hlabels : pieces.map Piece.label = tokens.map Token.label) :
    ∃ texts : List ClauseText, texts.flatMap ClauseText.pieces = pieces ∧
      texts.map ClauseText.tree = clauses := by
  induction h generalizing pieces with
  | nil => exact ⟨[], (List.map_eq_nil_iff.mp hlabels).symm, rfl⟩
  | @clause tokens last clauses tree _ hlast ih =>
    rw [List.map_append, List.map_eq_append_iff] at hlabels
    obtain ⟨before, later, rfl, hbefore, hlater⟩ := hlabels
    obtain ⟨texts, rfl, rfl⟩ := ih hbefore
    have hderived : ClauseRule (Division.tokensFrom .start later) tree :=
      hlast.relabel (Division.tokensFrom_labels.trans hlater)
    exact ⟨texts ++ [⟨later, tree, hderived⟩], by simp, by simp⟩

namespace ClauseText

/-- Tokens with the labels of clauses are clauses. -/
theorem clausesRule {order : List ClauseText}
    (h : tokens.map Token.label = (order.flatMap ClauseText.pieces).map Piece.label) :
    ClausesRule tokens (order.map ClauseText.tree) := by
  induction order using List.reverseRecOn generalizing tokens with
  | nil =>
    obtain rfl := List.map_eq_nil_iff.mp h
    exact .nil
  | append_singleton order clause ih =>
    rw [List.flatMap_append, List.map_append, List.map_eq_append_iff] at h
    obtain ⟨before, later, rfl, hbefore, hlater⟩ := h
    rw [List.flatMap_singleton, ← Division.tokensFrom_labels] at hlater
    rw [List.map_append]
    exact .clause (ih hbefore) (clause.derived.relabel hlater)

theorem first_piece (self : ClauseText) :
    ∃ first rest, self.pieces = first :: rest ∧ first.label.kind = .attributeName := by
  obtain ⟨token, rest, htokens, hkind⟩ := self.derived.first_kind
  obtain ⟨first, rest, hpieces, hfirst⟩ := Division.exists_cons_of_tokensFrom htokens
  exact ⟨first, rest, hpieces, by rw [hfirst]; exact hkind⟩

theorem last_piece (self : ClauseText) :
    ∃ before last, self.pieces = before ++ [last] ∧
      last.label.kind ∈ [Token.Kind.identifier, .raw, .attributeName, .rightParen] := by
  obtain ⟨before, token, htokens, hkind⟩ := self.derived.last_kind
  obtain ⟨before, last, hpieces, hlast⟩ := Division.exists_concat_of_tokensFrom htokens
  refine ⟨before, last, hpieces, ?_⟩
  rw [hlast]
  rcases hkind with hkind | hkind <;> simp [Token.label, hkind]

/-- The pieces of the clause stand in some text, with something after them. -/
def Stands (self : ClauseText) : Prop :=
  ∃ more last, Division.Maximal ⟨self.pieces ++ more, last⟩ ∧ Division.chars ⟨more, last⟩ ≠ []

/-- Clauses can stand in any order before a text that does not go on with a word. -/
theorem maximal_flatMap {order : List ClauseText} {back : List Piece} {last : List Char}
    (h : ∀ clause ∈ order, clause.Stands) (hback : Division.Maximal ⟨back, last⟩)
    (hends : EndsWord (Division.chars ⟨back, last⟩)) :
    Division.Maximal ⟨order.flatMap ClauseText.pieces ++ back, last⟩ ∧
      EndsWord (Division.chars ⟨order.flatMap ClauseText.pieces ++ back, last⟩) := by
  induction order with
  | nil => exact ⟨hback, hends⟩
  | cons clause order ih =>
    rw [List.forall_mem_cons] at h
    obtain ⟨⟨more, ending, hstands, hne⟩, hrest⟩ := h
    obtain ⟨hmaximal, hends⟩ := ih hrest
    obtain ⟨before, piece, hlast, hkind⟩ := clause.last_piece
    obtain ⟨first, rest, hfirst, hfirstkind⟩ := clause.first_piece
    have hwhole : Division.Maximal
        ⟨clause.pieces ++ (order.flatMap ClauseText.pieces ++ back), last⟩ := by
      rw [hlast, List.append_assoc] at hstands ⊢
      exact hstands.go_on hkind hne hmaximal hends
    rw [List.flatMap_cons, List.append_assoc]
    refine ⟨hwhole, ?_⟩
    rw [hfirst] at hwhole ⊢
    exact hwhole.endsWord (.inl hfirstkind)

end ClauseText

end Clauses

namespace ColumnLine

variable {self : ColumnLine} {order : List ClauseText}

theorem back_piece (self : ColumnLine) :
    ∃ first rest, self.back = first :: rest ∧ first.label.kind = .eol := by
  have hcloses := self.closes
  generalize htokens : Division.tokensFrom .start self.back = tokens at hcloses
  obtain ⟨heol, _⟩ := hcloses
  obtain ⟨first, rest, hback, hfirst⟩ := Division.exists_cons_of_tokensFrom htokens
  exact ⟨first, rest, hback, by rw [hfirst]; exact heol⟩

theorem front_piece (self : ColumnLine) :
    ∃ before last, self.front = before ++ [last] ∧
      last.label.kind ∈ [Token.Kind.identifier, .raw, .attributeName, .rightParen] := by
  have hopens := self.opens
  generalize htokens : Division.tokensFrom .start self.front = tokens at hopens
  obtain @⟨lines, body, word, name, eol, first, type, _, _, _, _, _, _, htype⟩ := hopens
  have htokens : Division.tokensFrom .start self.front =
      (lines ++ ([word, name, eol] ++ (body ++ [first]))) ++ [type] := by
    simp [htokens]
  obtain ⟨before, last, hfront, hlast⟩ := Division.exists_concat_of_tokensFrom htokens
  refine ⟨before, last, hfront, ?_⟩
  rw [hlast]
  generalize self.place.type = tree at htype
  cases htype with
  | named hkind => simp [Token.label, hkind]
  | raw hkind => simp [Token.label, hkind]

/-- The clauses of a line can change places without a change to any token. -/
theorem maximal_rewrite (hperm : order.Perm self.clauses) :
    Division.Maximal ⟨self.pieces order, self.last⟩ := by
  obtain ⟨before, type, hfront, htype⟩ := self.front_piece
  obtain ⟨eol, rest, hback, heol⟩ := self.back_piece
  have hmaximal := self.maximal
  have hback' : Division.Maximal ⟨self.back, self.last⟩ := hmaximal.of_append.of_append
  have hends : EndsWord (Division.chars ⟨self.back, self.last⟩) := by
    rw [hback] at hback' ⊢
    exact hback'.endsWord (.inr heol)
  have hne (more : List Piece) : Division.chars ⟨more ++ self.back, self.last⟩ ≠ [] := by
    have htext := hback'.text_ne_nil eol (by simp [hback])
    simp [Division.chars, hback, Piece.chars, htext]
  have hstands : ∀ clause ∈ order, clause.Stands := by
    intro clause hclause
    obtain ⟨earlier, later, hsplit⟩ := List.append_of_mem (hperm.mem_iff.mp hclause)
    rw [hsplit, List.flatMap_append, List.flatMap_cons, List.append_assoc,
      List.append_assoc] at hmaximal
    exact ⟨_, _, hmaximal.of_append.of_append, hne _⟩
  obtain ⟨hother, hends⟩ := ClauseText.maximal_flatMap hstands hback' hends
  rw [hfront, List.append_assoc] at hmaximal
  rw [pieces, hfront, List.append_assoc]
  exact hmaximal.go_on htype (hne _) hother hends

theorem rewrite_labels (hperm : order.Perm self.clauses) :
    (Script.ofText (self.rewrite order)).tokens.map Token.label = self.labels order := by
  have hchars : Division.chars ⟨self.pieces order, self.last⟩ = (self.rewrite order).toList := by
    rw [rewrite, String.toList_ofList]
  exact (Script.labels_of_maximal (maximal_rewrite hperm) hchars).symm

/-- Tokens of these kinds and literals are those of the line and of what is around it. -/
theorem exists_tokens {tokens : List Token} (h : tokens.map Token.label = self.labels order) :
    ∃ front middle back, tokens = front ++ (middle ++ back) ∧ self.place.Opens front ∧
      front.map Token.label = self.front.map Piece.label ∧
      middle.map Token.label = (order.flatMap ClauseText.pieces).map Piece.label ∧
      self.place.Closes back := by
  rw [labels, pieces, List.map_append, List.map_append, List.map_eq_append_iff] at h
  obtain ⟨front, later, rfl, hfront, hlater⟩ := h
  obtain ⟨middle, back, rfl, hmiddle, hback⟩ := List.map_eq_append_iff.mp hlater
  exact ⟨front, middle, back, rfl,
    self.opens.relabel (hfront.trans Division.tokensFrom_labels.symm), hfront, hmiddle,
    self.closes.relabel (hback.trans Division.tokensFrom_labels.symm)⟩

theorem derives {tokens : List Token} (h : tokens.map Token.label = self.labels order) :
    SourceRule tokens (self.place.items (order.map ClauseText.tree)) := by
  obtain ⟨front, middle, back, rfl, hopens, _, hmiddle, hcloses⟩ := exists_tokens h
  exact LinePlace.source hopens (ClauseText.clausesRule hmiddle) hcloses

theorem source_derives (self : ColumnLine) :
    SourceRule (Script.ofText self.source).tokens
      (self.place.items (self.clauses.map ClauseText.tree)) :=
  derives (rewrite_labels (.refl _))

theorem source_admissible {schema : Schema}
    (h : (Schema.parse self.source).outcome = .ok schema) :
    Item.Admissible (self.place.items (self.clauses.map ClauseText.tree)) := by
  obtain ⟨hdescribes, hwell⟩ := (Schema.parse_eq_ok_iff_describes self.source_derives).mp h
  exact hdescribes.admissible hwell

/-- Where actions do not all come after a reference, the first one of them comes before
it. -/
theorem exists_first_action
    (h : ¬ EachAfter ClauseTree.AfterReference (order.map ClauseText.tree)) :
    ∃ earlier clause later, order = earlier ++ clause :: later ∧
      (clause.tree.name = "onDelete" ∨ clause.tree.name = "onUpdate") ∧
      ∀ other ∈ earlier, other.tree.name ∉ ["reference", "onDelete", "onUpdate"] := by
  induction order with
  | nil => exact absurd EachAfter.nil h
  | cons clause order ih =>
    by_cases haction : clause.tree.name = "onDelete" ∨ clause.tree.name = "onUpdate"
    · exact ⟨[], clause, order, rfl, haction, nofun⟩
    have hclause : EachAfter ClauseTree.AfterReference [clause.tree] :=
      EachAfter.nil.concat fun haction' => absurd haction' haction
    have hname : clause.tree.name ≠ "reference" := fun hname =>
      h (hclause.append fun _ _ _ _ _ => ⟨clause.tree, by simp, hname⟩)
    have hrest : ¬ EachAfter ClauseTree.AfterReference (order.map ClauseText.tree) := by
      intro hrest
      refine h (hclause.append fun before action after hsplit haction => ?_)
      obtain ⟨other, hother, hreference⟩ := hrest before action after hsplit haction
      exact ⟨other, by simp [hother], hreference⟩
    obtain ⟨earlier, first, later, rfl, hfirst, hearlier⟩ := ih hrest
    refine ⟨clause :: earlier, first, later, rfl, hfirst, List.forall_mem_cons.mpr ⟨?_, hearlier⟩⟩
    simpa [hname] using haction

/-- With every action after its reference, the text compiles as before. -/
theorem compile_eq {other sql : String} (h : (compile self.source).outcome = .ok sql)
    (hperm : order.Perm self.clauses)
    (hlabels : (Script.ofText other).tokens.map Token.label = self.labels order)
    (hactions : EachAfter ClauseTree.AfterReference (order.map ClauseText.tree)) :
    (compile other).outcome = .ok sql := by
  obtain ⟨schema, _, hparse, _⟩ := compile_outcome_eq_ok_iff.mp h
  exact compile_of_reorders h self.source_derives (derives hlabels)
    (LinePlace.items_reorders (source_admissible hparse) (hperm.map ClauseText.tree) hactions)

/-- The action of an accepted line has a reference, wherever that is put. -/
theorem exists_reference {schema : Schema} {clause : ClauseText}
    (h : (Schema.parse self.source).outcome = .ok schema) (hperm : order.Perm self.clauses)
    (hmem : clause ∈ order)
    (haction : clause.tree.name = "onDelete" ∨ clause.tree.name = "onUpdate") :
    ∃ other ∈ order, other.tree.name = "reference" := by
  obtain ⟨_, _, hactions⟩ := LinePlace.admissible_line (source_admissible h)
  have hclause : clause.tree ∈ self.clauses.map ClauseText.tree :=
    List.mem_map_of_mem (hperm.mem_iff.mp hmem)
  obtain ⟨before, after, hsplit⟩ := List.append_of_mem hclause
  obtain ⟨tree, htree, hreference⟩ := hactions before clause.tree after hsplit haction
  have htree : tree ∈ self.clauses.map ClauseText.tree := by simp [hsplit, htree]
  obtain ⟨other, hother, rfl⟩ := List.mem_map.mp htree
  exact ⟨other, hperm.mem_iff.mpr hother, hreference⟩

/-- With an action before its reference, the text is refused at the first action. -/
theorem exists_error {schema : Schema} {text : String}
    (h : (Schema.parse self.source).outcome = .ok schema) (hperm : order.Perm self.clauses)
    (hlabels : (Script.ofText text).tokens.map Token.label = self.labels order)
    (hactions : ¬ EachAfter ClauseTree.AfterReference (order.map ClauseText.tree)) :
    ∃ error, (Schema.parse text).outcome = .error error ∧ self.ErrorAtAction order text error := by
  obtain ⟨earlier, clause, later, rfl, hclause, hearlier⟩ := exists_first_action hactions
  have hreference : ∃ other ∈ later, other.tree.name = "reference" := by
    obtain ⟨other, hother, hname⟩ := exists_reference h hperm (by simp) hclause
    rcases List.mem_append.mp hother with hother | hother
    · exact absurd (by simp [hname]) (hearlier other hother)
    · rcases List.mem_cons.mp hother with rfl | hother
      · simp [hname] at hclause
      · exact ⟨other, hother, hname⟩
  obtain ⟨front, line, back, htokens, hopens, hfront, hline, _⟩ := exists_tokens hlabels
  rw [List.flatMap_append, List.flatMap_cons, List.map_append, List.map_append,
    List.map_eq_append_iff] at hline
  obtain ⟨middle, line, rfl, hmiddle, hline⟩ := hline
  obtain ⟨last, more, rfl, hlast, _⟩ := List.map_eq_append_iff.mp hline
  have hspelled : ∀ token ∈ front ++ middle, token.Spelled := by
    intro token htoken
    refine (Script.ofText_tokens_spelled text token ?_).1
    rw [htokens]
    rcases List.mem_append.mp htoken with htoken | htoken <;> simp [htoken]
  obtain ⟨first, rest, occasion, rfl, hfirst, hname, hrun⟩ := LinePlace.run_fails_at_action
    (more ++ (back ++ [(Script.ofText text).eof])) hopens (ClauseText.clausesRule hmiddle)
    (clause.derived.relabel (hlast.trans Division.tokensFrom_labels.symm)) hspelled
    (source_admissible h) (by simpa using hperm.map ClauseText.tree) (by simpa using hearlier)
    hclause
  have htext : (Script.ofText text).toList = front ++ (middle ++
      (first :: rest ++ (more ++ (back ++ [(Script.ofText text).eof])))) := by
    simp [Script.toList, htokens]
  rw [← htext] at hrun
  exact ⟨_, hrun, earlier, clause, later, rfl, hearlier, hreference, front ++ middle, first,
    rest ++ (more ++ back), occasion, by simp [htokens], by simp [hfront, hmiddle],
    by rw [hfirst, hname], hname, rfl⟩

end ColumnLine

section Marking

variable {tokens : List Token} {items : List Item} {table : TableTree}
variable {columns : List ColumnTree} {line : ColumnTree}

theorem LinesRule.exists_table (h : LinesRule tokens items) (hmem : .table table ∈ items) :
    ∃ lines middle rest before after, tokens = lines ++ (middle ++ rest) ∧
      LinesRule lines before ∧ TableRule middle table ∧ LinesRule rest after := by
  induction h with
  | nil => cases hmem
  | blank _ heol ih =>
    obtain ⟨lines, middle, rest, before, after, rfl, hbefore, htable, hafter⟩ := ih hmem
    exact ⟨lines, middle, _, before, after, by simp, hbefore, htable, hafter.blank heol⟩
  | table hlines hlast ih =>
    rcases List.mem_append.mp hmem with hmem | hmem
    · obtain ⟨lines, middle, rest, before, after, rfl, hbefore, htable, hafter⟩ := ih hmem
      exact ⟨lines, middle, _, before, _, by simp, hbefore, htable, hafter.table hlast⟩
    · cases List.mem_singleton.mp hmem
      exact ⟨_, _, [], _, [], by simp, hlines, hlast, .nil⟩
  | setting hlines hlast heol ih =>
    have hmem := (List.mem_append.mp hmem).resolve_right (by simp)
    obtain ⟨lines, middle, rest, before, after, rfl, hbefore, htable, hafter⟩ := ih hmem
    exact ⟨lines, middle, _, before, _, by simp, hbefore, htable, hafter.setting hlast heol⟩

/-- A table that is read stands somewhere, between lines and the rest of the text. -/
theorem SourceRule.exists_table (h : SourceRule tokens items) (hmem : .table table ∈ items) :
    ∃ lines middle rest before after, tokens = lines ++ (middle ++ rest) ∧
      LinesRule lines before ∧ TableRule middle table ∧ SourceRule rest after := by
  cases h with
  | lines hlines =>
    obtain ⟨lines, middle, rest, before, after, rfl, hbefore, htable, hafter⟩ :=
      hlines.exists_table hmem
    exact ⟨lines, middle, rest, before, after, rfl, hbefore, htable, .lines hafter⟩
  | unended hlines hlast =>
    have hmem := (List.mem_append.mp hmem).resolve_right (by simp)
    obtain ⟨lines, middle, rest, before, after, rfl, hbefore, htable, hafter⟩ :=
      hlines.exists_table hmem
    exact ⟨lines, middle, _, before, _, by simp, hbefore, htable, .unended hafter hlast⟩

/-- A column that is read stands somewhere in the body of its table. -/
theorem BodyRule.exists_column (h : BodyRule tokens columns) (hmem : line ∈ columns) :
    ∃ front middle rest before after, tokens = front ++ (middle ++ rest) ∧
      BodyRule front before ∧ ColumnRule middle line ∧ BodyRule rest after := by
  induction h with
  | nil => cases hmem
  | blank _ heol ih =>
    obtain ⟨front, middle, rest, before, after, rfl, hbefore, hline, hafter⟩ := ih hmem
    exact ⟨front, middle, _, before, after, by simp, hbefore, hline, hafter.blank heol⟩
  | column hbody hlast ih =>
    rcases List.mem_append.mp hmem with hmem | hmem
    · obtain ⟨front, middle, rest, before, after, rfl, hbefore, hline, hafter⟩ := ih hmem
      exact ⟨front, middle, _, before, _, by simp, hbefore, hline, hafter.column hlast⟩
    · cases List.mem_singleton.mp hmem
      exact ⟨_, _, [], _, [], by simp, hbody, hlast, .nil⟩

/-- Every column line of a text can be marked. -/
theorem SourceRule.exists_place (h : SourceRule tokens items) (htable : .table table ∈ items)
    (hline : line ∈ table.columns) :
    ∃ (place : LinePlace) (front middle back : List Token) (clauses : List ClauseTree),
      tokens = front ++ (middle ++ back) ∧ place.Opens front ∧ ClausesRule middle clauses ∧
      place.Closes back ∧ table.name = place.table ∧ line = ⟨place.name, place.type, clauses⟩ := by
  obtain ⟨lines, _, rest, before, after, rfl, hbefore, htable, hafter⟩ := h.exists_table htable
  obtain @⟨word, name, eol, last, _, _, hword, hname, heol, hbody, hlast⟩ := htable
  obtain ⟨front, _, later, columns, others, rfl, hcolumns, hcolumn, hothers⟩ :=
    hbody.exists_column hline
  obtain @⟨first, type, eol', tree, middle, clauses, hfirst, htype, hclauses, heol'⟩ := hcolumn
  refine ⟨⟨before, name.literal, columns, first.literal, tree, others, after⟩,
    lines ++ ([word, name, eol] ++ (front ++ [first, type])), middle,
    eol' :: (later ++ last :: rest), clauses, by simp, ?_, hclauses,
    .line heol' hothers hlast hafter, rfl, rfl⟩
  exact .line hbefore hword (Token.label_eq_iff.mpr ⟨hname, rfl⟩) heol hcolumns
    (Token.label_eq_iff.mpr ⟨hfirst, rfl⟩) htype

/-- Every column of a schema has a line in the text from which it was read. -/
theorem ColumnLine.exists_of_mem {source : String} {schema : Schema} {table : Table}
    {column : Column} (h : (Schema.parse source).outcome = .ok schema)
    (htable : table ∈ schema.tables) (hcolumn : column ∈ table.columns) :
    ∃ line : ColumnLine, line.source = source ∧ line.place.table = table.name ∧
      line.tree.Describes column := by
  obtain ⟨items, hrule, hdescribes⟩ := Schema.parse_derives h
  obtain ⟨tree, htree, hdescribed⟩ := exists_left_of_mem hdescribes.tables htable
  obtain ⟨line, hline, hcolumn⟩ := exists_left_of_mem hdescribed.columns hcolumn
  obtain ⟨place, front, middle, back, clauses, htokens, hopens, hclauses, hcloses, hname, rfl⟩ :=
    hrule.exists_place (Item.mem_tables.mp htree) hline
  -- The tokens are cut at the same places as the pieces that they were read from.
  obtain ⟨⟨pieces, last⟩, hmaximal, hchars, hlabels⟩ := Script.exists_division source
  rw [htokens, List.map_append, List.map_append] at hlabels
  obtain ⟨front', pieces, rfl, hfront, hpieces⟩ := List.map_eq_append_iff.mp hlabels
  obtain ⟨middle', back', rfl, hmiddle, hback⟩ := List.map_eq_append_iff.mp hpieces
  obtain ⟨texts, rfl, rfl⟩ := hclauses.exists_texts hmiddle
  refine ⟨⟨place, front', texts, back', last,
    hopens.relabel (Division.tokensFrom_labels.trans hfront),
    hcloses.relabel (Division.tokensFrom_labels.trans hback), hmaximal⟩, ?_,
    hname.symm.trans hdescribed.name, hcolumn⟩
  rw [ColumnLine.source, ColumnLine.rewrite, ColumnLine.pieces, hchars, String.ofList_toList]

end Marking

/-- The order of the clauses on a column line matters for references alone. With every
action after the reference, the text compiles to the same SQL text, and otherwise the
first action is where the error is shown. -/
theorem compile_clause_order {source sql : String} (h : (compile source).outcome = .ok sql) :
    (∀ schema, (Schema.parse source).outcome = .ok schema → ∀ table ∈ schema.tables,
      ∀ column ∈ table.columns, ∃ line : ColumnLine, line.source = source ∧
        line.place.table = table.name ∧ line.tree.Describes column) ∧
    ∀ line : ColumnLine, line.source = source → ∀ order, order.Perm line.clauses →
      (Script.ofText (line.rewrite order)).tokens.map Token.label = line.labels order ∧
      ∀ other, (Script.ofText other).tokens.map Token.label = line.labels order →
        (EachAfter ClauseTree.AfterReference (order.map ClauseText.tree) →
          (compile other).outcome = .ok sql) ∧
        (¬ EachAfter ClauseTree.AfterReference (order.map ClauseText.tree) →
          ∃ error, (Schema.parse other).outcome = .error error ∧
            line.ErrorAtAction order other error) := by
  obtain ⟨schema, _, hparse, _⟩ := compile_outcome_eq_ok_iff.mp h
  refine ⟨fun _ hparse _ htable _ => ColumnLine.exists_of_mem hparse htable, ?_⟩
  rintro line rfl order hperm
  refine ⟨ColumnLine.rewrite_labels hperm, fun other hlabels => ⟨?_, ?_⟩⟩
  · exact ColumnLine.compile_eq h hperm hlabels
  · exact ColumnLine.exists_error hparse hperm hlabels

/-- Three clauses change places that have no blank between them. -/
theorem compile_clause_order_of_cascade :
    ∃ (line : ColumnLine) (nullable reference action : ClauseText) (sql : String),
      line.source = "table a\n x int\nend\ntable b\n" ++
        " y int@nullable@reference(\"a\",\"x\")@onDelete(\"cascade\")\nend" ∧
      line.clauses = [nullable, reference, action] ∧
      (compile line.source).outcome = .ok sql ∧
      (compile (line.rewrite [reference, action, nullable])).outcome = .ok sql ∧
      ∃ error, (Schema.parse (line.rewrite [action, nullable, reference])).outcome =
        .error error ∧ line.ErrorAtAction [action, nullable, reference]
          (line.rewrite [action, nullable, reference]) error := by
  have hparse : (Schema.parse ("table a\n x int\nend\ntable b\n" ++
        " y int@nullable@reference(\"a\",\"x\")@onDelete(\"cascade\")\nend")).outcome =
      .ok ⟨.initial, [⟨"a", [⟨"x", .named "int", []⟩], []⟩,
        ⟨"b", [⟨"y", .named "int", [.nullable, .reference "a" "x", .action .delete "CASCADE"]⟩],
          [⟨"y", "a", "x", some "CASCADE", none⟩]⟩]⟩ := by
    decide +kernel
  have hcompile := compile_outcome_eq_ok_iff.mpr ⟨_,
    [⟨"a", [⟨"x", "INTEGER", false, none, false, false⟩], []⟩,
      ⟨"b", [⟨"y", "INTEGER", false, none, false, true⟩],
        [⟨"y", "a", "x", some "CASCADE", none⟩]⟩], hparse, by decide +kernel, rfl⟩
  obtain ⟨hmarked, horders⟩ := compile_clause_order hcompile
  obtain ⟨line, hsource, _, _, htype, declared, hattributes, hdeclared⟩ :=
    hmarked _ hparse _ (.tail _ (.head _)) _ (.head _)
  have htype : line.tree.type.attributes = [] := by
    cases hnamed : line.tree.type with
    | named => rfl
    | raw => rw [hnamed] at htype; cases htype
  rw [htype, List.nil_append] at hattributes
  rw [← hattributes, ColumnLine.tree, List.forall₂_map_left_iff] at hdeclared
  simp only [List.forall₂_cons_right_iff, List.forall₂_nil_right_iff] at hdeclared
  obtain ⟨nullable, _, hnullable, ⟨reference, _, hreference, ⟨action, _, haction, rfl, rfl⟩, rfl⟩,
    hline⟩ := hdeclared
  have hnullable : nullable.tree.name = "nullable" := hnullable.name_eq.symm
  have hreference : reference.tree.name = "reference" := hreference.name_eq.symm
  have haction : action.tree.name = "onDelete" := haction.name_eq.symm
  have hsame : EachAfter ClauseTree.AfterReference
      ([reference, action, nullable].map ClauseText.tree) := by
    refine ((EachAfter.nil.concat ?_).concat ?_).concat ?_
    · simp [ClauseTree.AfterReference, hreference]
    · exact fun _ => ⟨reference.tree, .head _, hreference⟩
    · simp [ClauseTree.AfterReference, hnullable]
  have hother : ¬ EachAfter ClauseTree.AfterReference
      ([action, nullable, reference].map ClauseText.tree) := by
    intro h
    obtain ⟨_, hmem, _⟩ := h [] _ _ rfl (.inl haction)
    cases hmem
  have hperm : [reference, action, nullable].Perm line.clauses := by
    rw [hline]
    exact @List.perm_append_comm _ [reference, action] [nullable]
  have hperm' : [action, nullable, reference].Perm line.clauses := by
    rw [hline]
    exact @List.perm_append_comm _ [action] [nullable, reference]
  obtain ⟨hlabels, hcompiles⟩ := horders line hsource _ hperm
  obtain ⟨hlabels', hfails⟩ := horders line hsource _ hperm'
  exact ⟨line, nullable, reference, action, _, hsource, hline, hsource ▸ hcompile,
    (hcompiles _ hlabels).1 hsame, (hfails _ hlabels').2 hother⟩

end SchemaScript
