import Mathlib
import SchemaScript.Proofs.Munch

namespace SchemaScript

namespace Position

/-- The place is on an earlier line, or further left on the same line. -/
def Before (p q : Position) : Prop := p.line < q.line ∨ p.line = q.line ∧ p.column < q.column

variable {p q r : Position}

theorem Before.trans (h : p.Before q) (hlater : q.Before r) : p.Before r := by
  unfold Before at *
  omega

theorem Before.ne (h : p.Before q) : p ≠ q := by
  rintro rfl
  unfold Before at h
  omega

/-- Every character leads to a later place. -/
theorem before_after (p : Position) {text : List Char} (h : text ≠ []) :
    p.Before (p.after text) := by
  have hline (p : Position) : p.Before p.nextLine := .inl (Nat.lt_succ_self _)
  have hcolumn (p : Position) : p.Before p.nextColumn := .inr ⟨rfl, Nat.lt_succ_self _⟩
  induction text generalizing p with
  | nil => exact absurd rfl h
  | cons c rest ih =>
    have hfirst : ∃ q, p.Before q ∧ p.after (c :: rest) = q.after rest := by
      rw [after]
      split
      · exact ⟨_, hline p, rfl⟩
      · exact ⟨_, hcolumn p, rfl⟩
    obtain ⟨q, hq, hafter⟩ := hfirst
    rw [hafter]
    by_cases hrest : rest = []
    · rw [hrest]
      exact hq
    · exact hq.trans (ih q hrest)

theorem eq_or_before_after (p : Position) (text : List Char) :
    p = p.after text ∨ p.Before (p.after text) := by
  by_cases h : text = []
  · rw [h]
    exact .inl rfl
  · exact .inr (p.before_after h)

end Position

section Gaps

variable {gap later rest rest' : List Char}

theorem GapBefore.of_head? (h : GapBefore rest gap) (hhead : rest'.head? = rest.head?) :
    GapBefore rest' gap := by
  intro before c after hsplit
  have hc := h before c after hsplit
  cases after with
  | nil => simpa [hhead] using hc
  | cons d after => simpa using hc

theorem gapBefore_append :
    GapBefore rest (gap ++ later) ↔ GapBefore (later ++ rest) gap ∧ GapBefore rest later := by
  induction gap with
  | nil => simp [gapBefore_nil]
  | cons c gap ih =>
    rw [List.cons_append, gapBefore_cons, gapBefore_cons, ih, List.append_assoc, and_assoc]

/-- A gap at the end of a text ends with a blank, so that anything can follow it. -/
theorem GapBefore.of_nil (h : GapBefore [] gap) : GapBefore rest gap := by
  intro before c after hsplit
  refine (h before c after hsplit).imp_right ?_
  rintro ⟨rfl, next, hnext, hblank⟩
  cases after with
  | nil => cases hnext
  | cons d after => exact ⟨rfl, next, hnext, hblank⟩

/-- So does a gap before a token. -/
theorem GapBefore.nil_of_head? (h : GapBefore rest gap)
    (hrest : ∀ c ∈ rest.head?, isBlank c = false) : GapBefore [] gap := by
  intro before c after hsplit
  refine (h before c after hsplit).imp_right ?_
  rintro ⟨rfl, next, hnext, hblank⟩
  cases after with
  | nil => exact absurd hblank (by simp [hrest next hnext])
  | cons d after => exact ⟨rfl, next, hnext, hblank⟩

end Gaps

namespace Label.Spans

variable {self : Label} {text rest rest' : List Char}

/-- A token that is followed by something does not look further than one character. -/
theorem of_head? (h : self.Spans text rest) (hne : rest ≠ []) (hhead : rest'.head? = rest.head?) :
    self.Spans text rest' := by
  have hends (hrest : EndsWord rest) : EndsWord rest' := by
    unfold EndsWord
    rwa [hhead]
  cases h with
  | lineFeed => exact .lineFeed
  | returnAndFeed => exact .returnAndFeed
  | carriageReturn hrest => exact .carriageReturn (hhead ▸ hrest)
  | keyword hword hrest => exact .keyword hword (hends hrest)
  | identifier hname hrest => exact .identifier hname (hends hrest)
  | attributeName hname hrest => exact .attributeName hname (hends hrest)
  | number hnonempty hdigits hrest => exact .number hnonempty hdigits (hhead ▸ hrest)
  | closed hquote hfree => exact .closed hquote hfree
  | unclosed => exact absurd rfl hne
  | punctuation hkind => exact .punctuation hkind
  | stray hc => exact .stray hc
  | marker hrest => exact .marker (hhead ▸ hrest)

theorem head?_not_blank (h : self.Spans text rest) :
    ∀ c ∈ (text ++ rest).head?, isBlank c = false := by
  obtain ⟨c, cs, hsplit, hgap, _⟩ := h.read_eq
  rw [Cursor.isGap, Bool.or_eq_false_iff] at hgap
  simp [hsplit, hgap.1]

/-- A line break is not changed by what follows it, except that a line feed joins a
carriage return. -/
theorem eol_append (h : self.Spans text rest) (hkind : self.kind = .eol) (more : List Char) :
    self.Spans text (rest ++ more) ∨
      ∃ later, rest = [] ∧ more = '\n' :: later ∧ self.Spans (text ++ ['\n']) later := by
  cases h with
  | lineFeed => exact .inl .lineFeed
  | returnAndFeed => exact .inl .returnAndFeed
  | carriageReturn hrest =>
    by_cases hfeed : (rest ++ more).head? = some '\n'
    · obtain rfl : rest = [] := by
        cases rest with
        | nil => rfl
        | cons c rest => exact absurd hfeed hrest
      obtain ⟨later, rfl⟩ := List.head?_eq_some_iff.mp hfeed
      exact .inr ⟨later, rfl, rfl, .returnAndFeed⟩
    · exact .inl (.carriageReturn hfeed)
  | keyword hword => simp_all
  | closed hquote | unclosed hquote => simp_all
  | punctuation hword => simp_all
  | _ => cases hkind

/-- Any token but a lone marker can be followed by a gap. A quote that is open at the
end of a text has to be closed first. -/
theorem before_gap (h : self.Spans text rest) (hkind : self.kind ≠ .illegal) :
    (∀ rest' : List Char, (∀ c ∈ rest'.head?, isBlank c ∨ c = '@') → self.Spans text rest') ∨
      rest = [] ∧ ∃ quote, ∀ rest', self.Spans (text ++ [quote]) rest' := by
  have hends {rest' : List Char} (hgap : ∀ c ∈ rest'.head?, isBlank c ∨ c = '@') :
      EndsWord rest' ∧ rest'.head? ≠ some '\n' := by
    refine ⟨fun c hc => ?_, fun hfeed => by simpa [isBlank] using hgap _ hfeed⟩
    have hcases : (c = ' ' ∨ c = '\t') ∨ c = '@' := by simpa [isBlank] using hgap c hc
    rcases hcases with (rfl | rfl) | rfl <;> decide
  cases h with
  | lineFeed => exact .inl fun _ _ => .lineFeed
  | returnAndFeed => exact .inl fun _ _ => .returnAndFeed
  | carriageReturn => exact .inl fun _ hgap => .carriageReturn (hends hgap).2
  | keyword hword => exact .inl fun _ hgap => .keyword hword (hends hgap).1
  | identifier hname => exact .inl fun _ hgap => .identifier hname (hends hgap).1
  | attributeName hname => exact .inl fun _ hgap => .attributeName hname (hends hgap).1
  | number hne hdigits =>
    exact .inl fun _ hgap => .number hne hdigits (hends hgap).1.isDigit_eq_false
  | closed hquote hfree => exact .inl fun _ _ => .closed hquote hfree
  | unclosed hquote hfree => exact .inr ⟨rfl, _, fun _ => .closed hquote hfree⟩
  | punctuation hword => exact .inl fun _ _ => .punctuation hword
  | stray | marker => exact absurd rfl hkind

end Label.Spans

namespace Piece

/-- The token of a piece that starts at a place. -/
def token (self : Piece) (p : Position) : Token :=
  ⟨self.label.kind, self.label.literal, p.after self.gap⟩

/-- The place after a piece that starts at a place. -/
def stop (self : Piece) (p : Position) : Position := (p.after self.gap).after self.text

/-- The piece with more characters in its token. -/
def lengthen (self : Piece) (extra : List Char) : Piece :=
  { self with text := self.text ++ extra }

end Piece

namespace Division

/-- The tokens of pieces of which the first starts at a place. -/
def tokensFrom (p : Position) : List Piece → List Token
  | [] => []
  | piece :: rest => piece.token p :: tokensFrom (piece.stop p) rest

/-- The place after pieces of which the first starts at a place. -/
def stopFrom (p : Position) (pieces : List Piece) : Position :=
  pieces.foldl (fun q piece => piece.stop q) p

/-- The tokens of a division with their places. -/
def script (self : Division) : Script :=
  ⟨tokensFrom .start self.pieces, ⟨.eof, "", (stopFrom .start self.pieces).after self.last⟩⟩

/-- The characters before the token of an index. The end token comes after the last
piece and has all characters before it. -/
def before (self : Division) (index : Nat) : List Char :=
  (self.pieces.take index).flatMap Piece.chars ++ self.pieces[index]?.elim self.last Piece.gap

/-- The division with a gap put before it. -/
def indent (gap : List Char) : Division → Division
  | ⟨[], last⟩ => ⟨[], gap ++ last⟩
  | ⟨piece :: rest, last⟩ => ⟨{ piece with gap := gap ++ piece.gap } :: rest, last⟩

section Tokens

variable {piece : Piece} {pieces later : List Piece} {last : List Char} {p : Position}

@[simp]
theorem chars_nil : chars ⟨[], last⟩ = last := rfl

theorem tokensFrom_append :
    tokensFrom p (pieces ++ later) =
      tokensFrom p pieces ++ tokensFrom (stopFrom p pieces) later := by
  induction pieces generalizing p with
  | nil => rfl
  | cons piece rest ih => exact congrArg (piece.token p :: ·) ih

@[simp]
theorem tokensFrom_length : (tokensFrom p pieces).length = pieces.length := by
  induction pieces generalizing p with
  | nil => rfl
  | cons piece rest ih => exact congrArg (· + 1) ih

theorem tokensFrom_labels : (tokensFrom p pieces).map Token.label = pieces.map Piece.label := by
  induction pieces generalizing p with
  | nil => rfl
  | cons piece rest ih => exact congrArg (piece.label :: ·) ih

/-- The characters of a token do not show in it, only its label and its place do. -/
theorem tokensFrom_lengthen {extra : List Char} :
    tokensFrom p (pieces ++ piece.lengthen extra :: later) =
      tokensFrom p (pieces ++ [piece]) ++
        tokensFrom ((piece.lengthen extra).stop (stopFrom p pieces)) later := by
  rw [tokensFrom_append, tokensFrom_append, List.append_assoc]
  rfl

/-- The cursor reads the first piece. -/
theorem Maximal.next_cons (h : Maximal ⟨piece :: pieces, last⟩) (p : Position) :
    (⟨chars ⟨piece :: pieces, last⟩, p⟩ : Cursor).next =
      (piece.token p, ⟨chars ⟨pieces, last⟩, piece.stop p⟩) := by
  obtain ⟨_, hspans, _⟩ := maximal_cons.mp h
  obtain ⟨c, cs, hsplit, _, hread⟩ := hspans.read_eq
  rw [Cursor.next, Cursor.skipGap, h.afterGap_cons, hsplit, Cursor.cut, hread]
  rfl

theorem Maximal.yields (h : Maximal ⟨pieces, last⟩) (p : Position) :
    (⟨chars ⟨pieces, last⟩, p⟩ : Cursor).Yields (tokensFrom p pieces)
      ⟨last, stopFrom p pieces⟩ := by
  induction pieces generalizing p with
  | nil => exact .nil _
  | cons piece rest ih =>
    obtain ⟨_, hspans, hrest⟩ := maximal_cons.mp h
    exact .cons (h.next_cons p) hspans.kind_ne_eof (ih hrest (piece.stop p))

end Tokens

/-- However a text is cut, the pieces are its tokens, with their places. -/
theorem Maximal.ofText_eq {self : Division} {source : String} (h : self.Maximal)
    (hchars : self.chars = source.toList) : Script.ofText source = self.script := by
  have hstart : Cursor.ofText source = ⟨self.chars, .start⟩ := by rw [Cursor.ofText, hchars]
  have hlast := (maximal_nil.mpr h.last).afterGap_nil (stopFrom .start self.pieces)
  have hend : (⟨self.last, stopFrom .start self.pieces⟩ : Cursor).next.1 = self.script.eof := by
    rw [chars_nil] at hlast
    rw [Cursor.next, Cursor.skipGap, hlast]
    rfl
  have hkind : self.script.eof.kind = .eof := rfl
  rw [Script.ofText_eq_of_yields (hstart ▸ h.yields .start) (hend ▸ hkind), hend]
  rfl

section Order

variable {pieces : List Piece} {last : List Char} {p : Position}

/-- Tokens stand one behind the other, the end token behind all of them. -/
private theorem tokensFrom_increasing {eof : Token} (h : ∀ piece ∈ pieces, piece.text ≠ [])
    (heof : eof.position = (stopFrom p pieces).after last) :
    (∀ token ∈ tokensFrom p pieces ++ [eof],
      p = token.position ∨ p.Before token.position) ∧
    (tokensFrom p pieces ++ [eof]).Pairwise
      fun token later => token.position.Before later.position := by
  induction pieces generalizing p with
  | nil =>
    rw [stopFrom, List.foldl_nil] at heof
    simpa [tokensFrom, heof] using p.eq_or_before_after last
  | cons piece rest ih =>
    rw [List.forall_mem_cons] at h
    obtain ⟨hlater, hincreasing⟩ := ih h.2 heof
    have hgap := p.eq_or_before_after piece.gap
    have hstop : (piece.token p).position.Before (piece.stop p) := Position.before_after _ h.1
    have hfirst : ∀ token ∈ tokensFrom (piece.stop p) rest ++ [eof],
        (piece.token p).position.Before token.position := by
      intro token hmem
      rcases hlater token hmem with heq | hbefore
      · exact heq ▸ hstop
      · exact hstop.trans hbefore
    refine ⟨List.forall_mem_cons.mpr ⟨hgap, ?_⟩, List.pairwise_cons.mpr ⟨hfirst, hincreasing⟩⟩
    intro token hmem
    rcases hgap with heq | hbefore
    · exact .inr (heq ▸ hfirst token hmem)
    · exact .inr (hbefore.trans (hfirst token hmem))

theorem Maximal.script_increasing {self : Division} (h : self.Maximal) :
    self.script.toList.Pairwise fun token later => token.position.Before later.position :=
  (tokensFrom_increasing h.text_ne_nil rfl).2

end Order

section Splice

variable {piece : Piece} {front back : List Piece} {last gap : List Char} {other : Division}

@[simp]
theorem indent_chars : (other.indent gap).chars = gap ++ other.chars := by
  obtain ⟨pieces, last⟩ := other
  cases pieces <;> simp [indent, chars, Piece.chars]

@[simp]
theorem indent_labels : (other.indent gap).labels = other.labels := by
  obtain ⟨pieces, last⟩ := other
  cases pieces <;> rfl

theorem Maximal.indent (h : other.Maximal) (hgap : GapBefore other.chars gap) :
    (other.indent gap).Maximal := by
  obtain ⟨pieces, last⟩ := other
  cases pieces with
  | nil =>
    have hlast := maximal_nil.mp h
    exact maximal_nil.mpr (gapBefore_append.mpr ⟨by simpa using hgap, hlast⟩)
  | cons piece rest =>
    obtain ⟨hfirst, hspans, hrest⟩ := maximal_cons.mp h
    rw [chars_cons] at hgap
    exact maximal_cons.mpr ⟨gapBefore_append.mpr ⟨hgap, hfirst⟩, hspans, hrest⟩

theorem chars_append_cons :
    chars ⟨front ++ piece :: back, last⟩ =
      front.flatMap Piece.chars ++ piece.chars ++ chars ⟨back, last⟩ := by
  simp [chars, Piece.chars]

theorem chars_resume {extra : List Char} :
    chars ⟨front ++ piece.lengthen extra :: other.pieces, other.last⟩ =
      front.flatMap Piece.chars ++ piece.chars ++ (extra ++ other.chars) := by
  simp [chars, Piece.chars, Piece.lengthen]

/-- After any of its pieces, which may become longer, a text can go on as another
text, if the piece is as long as it can be before that text. -/
theorem Maximal.resume {extra : List Char} (h : Maximal ⟨front ++ piece :: back, last⟩)
    (hother : other.Maximal) (hspans : piece.label.Spans (piece.text ++ extra) other.chars) :
    Maximal ⟨front ++ piece.lengthen extra :: other.pieces, other.last⟩ := by
  have htext : piece.text ≠ [] := h.text_ne_nil piece (by simp)
  induction front with
  | nil =>
    obtain ⟨hgap, _⟩ := maximal_cons.mp h
    refine maximal_cons.mpr ⟨hgap.of_head? ?_, hspans, hother⟩
    rw [Piece.lengthen, List.append_assoc, List.head?_append_of_ne_nil _ htext,
      List.head?_append_of_ne_nil _ htext]
  | cons first front ih =>
    rw [List.cons_append] at h ⊢
    obtain ⟨hgap, hfirst, hrest⟩ := maximal_cons.mp h
    -- The pieces before see no more than that there is something after them.
    have hne : front.flatMap Piece.chars ++ piece.chars ≠ [] := by simp [Piece.chars, htext]
    refine maximal_cons.mpr ⟨hgap.of_head? ?_, hfirst.of_head? ?_ ?_, ih hrest⟩
    · rw [List.head?_append_of_ne_nil _ hfirst.text_ne_nil,
        List.head?_append_of_ne_nil _ hfirst.text_ne_nil]
    · rw [chars_append_cons]
      exact List.append_ne_nil_of_left_ne_nil hne _
    · rw [chars_resume, chars_append_cons, List.head?_append_of_ne_nil _ hne,
        List.head?_append_of_ne_nil _ hne]

/-- The tokens up to the piece stay what they are, and those of the other text follow. -/
theorem Maximal.exists_tokens_resume {source : String} (extra : List Char)
    (h : Maximal ⟨front ++ piece :: back, last⟩) (hother : other.Maximal)
    (hspans : piece.label.Spans (piece.text ++ extra) other.chars)
    (hsource : source.toList =
      front.flatMap Piece.chars ++ piece.chars ++ (extra ++ other.chars)) :
    ∃ later, (Script.ofText source).tokens = tokensFrom .start (front ++ [piece]) ++ later ∧
      later.map Token.label = other.labels := by
  have hscript := (h.resume hother hspans).ofText_eq (chars_resume.trans hsource.symm)
  exact ⟨_, (congrArg Script.tokens hscript).trans tokensFrom_lengthen, tokensFrom_labels⟩

end Splice

end Division

namespace Script

/-- Of any two tokens of a text, the one that comes first stands at the earlier place. -/
theorem toList_increasing (source : String) :
    (ofText source).toList.Pairwise fun token later => token.position.Before later.position := by
  obtain ⟨division, hmaximal, hchars, _⟩ := exists_division source
  rw [hmaximal.ofText_eq hchars]
  exact hmaximal.script_increasing

/-- A text that ends with a line break, up to blanks, keeps its tokens when it goes on,
and the tokens after them are those of what is added. A line feed that joins the
last carriage return is no token of its own. -/
theorem exists_tokens_append {source : String} {last : Token}
    (hlast : (ofText source).tokens.getLast? = some last) (hkind : last.kind = .eol)
    (more : String) :
    ∃ later, (ofText (source ++ more)).tokens = (ofText source).tokens ++ later ∧
      (later.map Token.label = (ofText more).tokens.map Token.label ∨
        ⟨.eol, ""⟩ :: later.map Token.label = (ofText more).tokens.map Token.label) := by
  obtain ⟨⟨pieces, ending⟩, hmaximal, hchars, hlabels⟩ := exists_division source
  have hscript := hmaximal.ofText_eq hchars
  rcases List.eq_nil_or_concat' pieces with rfl | ⟨front, piece, rfl⟩
  · rw [hscript] at hlast
    cases hlast
  have htokens : (ofText source).tokens = Division.tokensFrom .start (front ++ [piece]) := by
    rw [hscript]
    rfl
  have hpiece : piece.label.kind = .eol := by
    rw [htokens, Division.tokensFrom_append] at hlast
    obtain rfl : piece.token _ = last := by simpa [Division.tokensFrom] using hlast
    exact hkind
  have hspans : piece.label.Spans piece.text ending := by
    simpa using (hmaximal.pieces front piece [] rfl).2
  rw [Division.chars_append_cons] at hchars
  rcases hspans.eol_append hpiece more.toList with hspans | ⟨rest, rfl, hmore, hspans⟩
  · obtain ⟨other, hother, hotherchars, hotherlabels⟩ := exists_division more
    have hindent := hother.indent hmaximal.last.of_nil
    obtain ⟨later, hlater, hlabels⟩ := hmaximal.exists_tokens_resume [] hindent
      (by simpa [hotherchars] using hspans)
      (show (source ++ more).toList = _ by simp [← hchars, hotherchars])
    refine ⟨later, htokens ▸ hlater, .inl ?_⟩
    rw [hlabels, Division.indent_labels, hotherlabels]
  · obtain ⟨other, hother, hotherchars, hotherlabels⟩ := exists_division (String.ofList rest)
    rw [String.toList_ofList] at hotherchars
    obtain ⟨later, hlater, hlabels⟩ := hmaximal.exists_tokens_resume ['\n'] hother
      (by simpa [hotherchars] using hspans)
      (show (source ++ more).toList = _ by simp [← hchars, hotherchars, hmore])
    have hfeed : Division.Maximal ⟨⟨[], ⟨.eol, ""⟩, ['\n']⟩ :: other.pieces, other.last⟩ :=
      Division.maximal_cons.mpr ⟨gapBefore_nil, .lineFeed, hother⟩
    refine ⟨later, htokens ▸ hlater, .inr ?_⟩
    rw [hlabels, ← labels_of_maximal hfeed (by simp [Division.chars_cons, hmore, hotherchars])]
    rfl

end Script

end SchemaScript
