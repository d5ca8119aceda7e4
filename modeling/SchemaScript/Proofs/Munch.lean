import Mathlib
import SchemaScript.Proofs.Writing

namespace SchemaScript

/-- A gap before `rest`: blanks, and markers that have a blank right after them. -/
def GapBefore (rest gap : List Char) : Prop :=
  ∀ before c after, gap = before ++ c :: after →
    isBlank c ∨ c = '@' ∧ ∃ next ∈ (after ++ rest).head?, isBlank next

/-- The character is no blank and opens no token of a legal kind. -/
def IsStray (c : Char) : Prop :=
  c ∉ [' ', '\t', '\n', '\r', '@', '"', '\x60', '(', ')', ','] ∧ ¬ startsWord c ∧ ¬ c.isDigit

namespace Label

/-- `label.Spans text rest` says that the token is written as `text` where `rest`
comes after it, and that `rest` does not lengthen it. -/
inductive Spans : Label → List Char → List Char → Prop where
  | lineFeed {rest : List Char} : Spans ⟨.eol, ""⟩ ['\n'] rest
  | returnAndFeed {rest : List Char} : Spans ⟨.eol, ""⟩ ['\r', '\n'] rest
  | carriageReturn {rest : List Char} (hrest : rest.head? ≠ some '\n') :
      Spans ⟨.eol, ""⟩ ['\r'] rest
  | keyword {kind : Token.Kind} {word : String} {rest : List Char}
      (hword : (kind, word) ∈ [(.tableWord, "table"), (.endWord, "end"), (.setWord, "set")])
      (hrest : EndsWord rest) : Spans ⟨kind, word⟩ word.toList rest
  | identifier {name : String} {rest : List Char} (hname : isName name) (hrest : EndsWord rest) :
      Spans ⟨.identifier, name⟩ name.toList rest
  | attributeName {name : String} {rest : List Char} (hname : isWord name) (hrest : EndsWord rest) :
      Spans ⟨.attributeName, name⟩ ('@' :: name.toList) rest
  | number {digits : String} {rest : List Char} (hne : digits ≠ "")
      (hdigits : ∀ c ∈ digits.toList, c.isDigit) (hrest : ∀ c ∈ rest.head?, c.isDigit = false) :
      Spans ⟨.number, digits⟩ digits.toList rest
  | closed {kind : Token.Kind} {quote : Char} {literal : String} {rest : List Char}
      (hquote : (kind, quote) ∈ [(.string, '"'), (.raw, '\x60')])
      (hfree : quote ∉ literal.toList) :
      Spans ⟨kind, literal⟩ (quote :: (literal.toList ++ [quote])) rest
  | unclosed {kind : Token.Kind} {quote : Char} {literal : String}
      (hquote : (kind, quote) ∈ [(.string, '"'), (.raw, '\x60')])
      (hfree : quote ∉ literal.toList) : Spans ⟨kind, literal⟩ (quote :: literal.toList) []
  | punctuation {kind : Token.Kind} {c : Char} {rest : List Char}
      (hkind : (kind, c) ∈ [(.leftParen, '('), (.rightParen, ')'), (.comma, ',')]) :
      Spans ⟨kind, String.singleton c⟩ [c] rest
  | stray {c : Char} {rest : List Char} (hc : IsStray c) :
      Spans ⟨.illegal, String.singleton c⟩ [c] rest
  | marker {rest : List Char} (hrest : ∀ c ∈ rest.head?, ¬ isBlank c ∧ ¬ startsWord c) :
      Spans ⟨.illegal, "@"⟩ ['@'] rest

end Label

theorem isStray_iff {c : Char} :
    IsStray c ↔ Opening.ofChar c = .single .illegal ∧ isBlank c = false := by
  simp only [IsStray, Opening.ofChar, isBlank, List.mem_cons, List.not_mem_nil, or_false, not_or,
    Bool.or_eq_false_iff, beq_eq_false_iff_ne]
  constructor
  · intro h
    simp [h]
  · rintro ⟨hopening, hblank⟩
    split_ifs at hopening <;> simp_all

section Reading

variable {c : Char} {cs : List Char}

theorem endsWord_dropWhile (cs : List Char) : EndsWord (cs.dropWhile continuesWord) := by
  intro d hd
  have hhead := List.head?_dropWhile_not continuesWord cs
  rw [hd] at hhead
  simpa using hhead

theorem quote_mem_of_admits {kind : Token.Kind} (h : (Opening.quote kind).Admits c) :
    (kind, c) ∈ [(.string, '"'), (.raw, '\x60')] := by
  rcases h with ⟨rfl, rfl⟩ | ⟨rfl, rfl⟩ <;> simp

theorem admits_of_quote_mem {kind : Token.Kind}
    (h : (kind, c) ∈ [(.string, '"'), (.raw, '\x60')]) : (Opening.quote kind).Admits c := by
  simpa [Opening.Admits, and_comm] using h

namespace Lexeme

/-- The token that the lexeme becomes, without its place. -/
def label (self : Lexeme) : Label := ⟨self.kind, self.literal⟩

theorem lineBreak_spans (h : c = '\n' ∨ c = '\r') :
    (lineBreak c cs).label.Spans (lineBreak c cs).text (lineBreak c cs).rest := by
  rcases h with rfl | rfl
  · exact .lineFeed
  · unfold lineBreak
    split
    next => exact .returnAndFeed
    next hpair =>
      refine .carriageReturn ?_
      intro hhead
      obtain ⟨rest, rfl⟩ := List.head?_eq_some_iff.mp hhead
      exact hpair rest rfl rfl

theorem marked_spans (hgap : Cursor.isGap '@' cs = false) :
    (marked '@' cs).label.Spans (marked '@' cs).text (marked '@' cs).rest := by
  have hspelled : (marked '@' cs).kind.Spells (marked '@' cs).literal := marked_spelled rfl
  unfold marked at hspelled ⊢
  split at hspelled
  next hstart =>
    have hspans := Label.Spans.attributeName hspelled (endsWord_dropWhile cs)
    simpa [hstart, label] using hspans
  next hstart =>
    rw [if_neg hstart]
    refine .marker ?_
    intro d hd
    have hhead : cs.head? = some d := hd
    simp only [Cursor.isGap, hhead, Option.any_some, Bool.or_eq_false_iff] at hgap
    simp only [hhead, Option.any_some] at hstart
    exact ⟨by simpa using hgap.2, hstart⟩

theorem quoted_spans {kind : Token.Kind} (h : (Opening.quote kind).Admits c) :
    (quoted kind c cs).label.Spans (quoted kind c cs).text (quoted kind c cs).rest := by
  have hquote := quote_mem_of_admits h
  have hfree : c ∉ (String.ofList (cs.takeWhile (· != c))).toList := by
    simpa using quote_not_mem_takeWhile c cs
  unfold quoted
  split
  next => simpa [label] using Label.Spans.unclosed hquote hfree
  next d rest hrest =>
    have hspans : Label.Spans ⟨kind, _⟩ _ rest := .closed hquote hfree
    simpa [label] using hspans

theorem word_spans (h : startsWord c) :
    (word c cs).label.Spans (word c cs).text (word c cs).rest := by
  have hspelled : (word c cs).kind.Spells (word c cs).literal := word_spelled h
  have hends := endsWord_dropWhile cs
  have htext : (word c cs).text = (word c cs).literal.toList := by simp [word]
  have hkind : (word c cs).kind = .ofWord (word c cs).literal := rfl
  have hrest : (word c cs).rest = cs.dropWhile continuesWord := rfl
  rw [htext, hrest]
  unfold label
  generalize (word c cs).kind = kind at *
  generalize (word c cs).literal = literal at *
  unfold Token.Kind.ofWord at hkind
  split_ifs at hkind with htable hend hset
  · exact .keyword (by simp [hkind, htable]) hends
  · exact .keyword (by simp [hkind, hend]) hends
  · exact .keyword (by simp [hkind, hset]) hends
  · subst hkind
    exact .identifier hspelled hends

theorem number_spans (h : c.isDigit) :
    (number c cs).label.Spans (number c cs).text (number c cs).rest := by
  have hspelled : (number c cs).kind.Spells (number c cs).literal := number_spelled h
  obtain ⟨hne, hdigits⟩ := hspelled
  have hrest : ∀ d ∈ (cs.dropWhile Char.isDigit).head?, d.isDigit = false := by
    intro d hd
    have hhead := List.head?_dropWhile_not Char.isDigit cs
    rw [hd] at hhead
    simpa using hhead
  simpa [number, label] using Label.Spans.number hne hdigits hrest

theorem single_spans {kind : Token.Kind} (h : Opening.ofChar c = .single kind)
    (hblank : isBlank c = false) : Label.Spans ⟨kind, String.singleton c⟩ [c] cs := by
  rcases Opening.admits_of_ofChar h with ⟨rfl, rfl⟩ | ⟨rfl, rfl⟩ | ⟨rfl, rfl⟩ | rfl
  · exact .punctuation (by simp)
  · exact .punctuation (by simp)
  · exact .punctuation (by simp)
  · exact .stray (isStray_iff.mpr ⟨h, hblank⟩)

/-- The lexeme that is read outside of a gap is the token that the text begins with. -/
theorem read_spans (hgap : Cursor.isGap c cs = false) :
    (read c cs).label.Spans (read c cs).text (read c cs).rest := by
  unfold read
  split
  next h => exact lineBreak_spans (Opening.admits_of_ofChar h)
  next h =>
    obtain rfl : c = '@' := Opening.admits_of_ofChar h
    exact marked_spans hgap
  next h => exact quoted_spans (Opening.admits_of_ofChar h)
  next h => exact word_spans (Opening.admits_of_ofChar h)
  next h => exact number_spans (Opening.admits_of_ofChar h)
  next h =>
    rw [Cursor.isGap, Bool.or_eq_false_iff] at hgap
    exact single_spans h hgap.1

end Lexeme

end Reading

namespace Label

variable {self : Label} {text rest : List Char}

theorem heads_carriageReturn (h : rest.head? ≠ some '\n') :
    Heads ⟨.eol, ""⟩ ('\r' :: rest) rest := by
  have hread : Lexeme.lineBreak '\r' rest = ⟨.eol, "", ['\r'], rest⟩ := by
    unfold Lexeme.lineBreak
    split
    next => simp at h
    next => rfl
  refine ⟨'\r', rest, rfl, rfl, ?_⟩
  rw [Lexeme.read, show Opening.ofChar '\r' = .lineBreak by decide]
  simp [hread]

theorem heads_unclosed {kind : Token.Kind} {quote : Char} {literal : String}
    (hquote : (Opening.quote kind).Admits quote) (hfree : quote ∉ literal.toList) :
    Heads ⟨kind, literal⟩ (quote :: literal.toList) [] := by
  have hend : ∀ d ∈ ([] : List Char).head?, d = quote := by simp
  simpa using heads_quote hquote hfree hend

theorem heads_marker (h : ∀ c ∈ rest.head?, ¬ isBlank c ∧ ¬ startsWord c) :
    Heads ⟨.illegal, "@"⟩ ('@' :: rest) rest := by
  have hblank : rest.head?.any isBlank = false := by
    cases hhead : rest.head? <;> simp_all
  have hword : rest.head?.any startsWord = false := by
    cases hhead : rest.head? <;> simp_all
  refine ⟨'@', rest, rfl, ?_, ?_⟩
  · simp [Cursor.isGap, hblank, show isBlank '@' = false from rfl]
  · rw [Lexeme.read, show Opening.ofChar '@' = .marker by decide]
    simp [Lexeme.marked, hword, Lexeme.single]

/-- A token that spans a text is read from its front. -/
theorem Spans.heads (h : self.Spans text rest) : self.Heads (text ++ rest) rest := by
  cases h with
  | lineFeed => exact heads_eol
  | returnAndFeed => exact ⟨'\r', '\n' :: rest, rfl, rfl, rfl, rfl, rfl⟩
  | carriageReturn hrest => exact heads_carriageReturn hrest
  | keyword hword hrest =>
    simp only [List.mem_cons, Prod.mk.injEq, List.not_mem_nil, or_false] at hword
    rcases hword with ⟨rfl, rfl⟩ | ⟨rfl, rfl⟩ | ⟨rfl, rfl⟩ <;>
      exact heads_word (by decide) hrest
  | identifier hname hrest =>
    have hheads := heads_word (isWord_of_isName hname) hrest
    rwa [Token.Kind.ofWord_of_isName hname] at hheads
  | attributeName hname hrest => exact heads_attribute hname hrest
  | number hne hdigits hrest => exact heads_number hne hdigits hrest
  | closed hquote hfree => exact heads_quoted (admits_of_quote_mem hquote) hfree
  | unclosed hquote hfree => simpa using heads_unclosed (admits_of_quote_mem hquote) hfree
  | punctuation hkind =>
    simp only [List.mem_cons, Prod.mk.injEq, List.not_mem_nil, or_false] at hkind
    rcases hkind with ⟨rfl, rfl⟩ | ⟨rfl, rfl⟩ | ⟨rfl, rfl⟩ <;>
      exact heads_single (by decide) (by decide) (by decide)
  | stray hc =>
    obtain ⟨hopening, hblank⟩ := isStray_iff.mp hc
    refine heads_single hopening hblank ?_
    rintro rfl
    exact absurd hopening (by decide)
  | marker hrest => exact heads_marker hrest

theorem Spans.kind_ne_eof (h : self.Spans text rest) : self.kind ≠ .eof := by
  cases h with
  | keyword hword => rintro rfl; simp at hword
  | closed hquote | unclosed hquote => rintro rfl; simp at hquote
  | punctuation hkind => rintro rfl; simp at hkind
  | _ => simp

theorem Spans.text_ne_nil (h : self.Spans text rest) : text ≠ [] := by
  cases h with
  | keyword hword =>
    simp only [List.mem_cons, Prod.mk.injEq, List.not_mem_nil, or_false] at hword
    rcases hword with ⟨rfl, rfl⟩ | ⟨rfl, rfl⟩ | ⟨rfl, rfl⟩ <;> simp
  | identifier hname =>
    obtain ⟨c, cs, hlist, _⟩ := exists_of_isWord (isWord_of_isName hname)
    simp [hlist]
  | number hne => simpa using hne
  | _ => simp

/-- What a token spans is fixed by the text that it begins. -/
theorem Spans.read_eq (h : self.Spans text rest) :
    ∃ c cs, text ++ rest = c :: cs ∧ Cursor.isGap c cs = false ∧
      Lexeme.read c cs = ⟨self.kind, self.literal, text, rest⟩ := by
  obtain ⟨c, cs, hsplit, hgap, hkind, hliteral, hrest⟩ := h.heads
  refine ⟨c, cs, hsplit, hgap, ?_⟩
  have htext := Lexeme.read_text_append_rest c cs
  rw [hrest, ← hsplit, List.append_cancel_right_eq] at htext
  cases hread : Lexeme.read c cs
  simp_all

theorem Spans.unique {other : Label} {text' rest' : List Char} (h : self.Spans text rest)
    (hother : other.Spans text' rest') (heq : text ++ rest = text' ++ rest') :
    self = other ∧ text = text' ∧ rest = rest' := by
  obtain ⟨c, cs, hsplit, _, hread⟩ := h.read_eq
  obtain ⟨c', cs', hsplit', _, hread'⟩ := hother.read_eq
  rw [heq, hsplit'] at hsplit
  cases hsplit
  rw [hread, Lexeme.mk.injEq] at hread'
  obtain ⟨hkind, hliteral, htext, hrest⟩ := hread'
  exact ⟨by cases self; cases other; simp_all, htext, hrest⟩

end Label

theorem gapBefore_cons {c : Char} {gap rest : List Char} :
    GapBefore rest (c :: gap) ↔ Cursor.isGap c (gap ++ rest) ∧ GapBefore rest gap := by
  constructor
  · intro h
    refine ⟨?_, fun before d after hsplit => h (c :: before) d after (by simp [hsplit])⟩
    rcases h [] c gap rfl with hblank | ⟨rfl, next, hnext, hblank⟩
    · simp [Cursor.isGap, hblank]
    · simp [Cursor.isGap, Option.mem_def.mp hnext, hblank]
  · rintro ⟨hc, hgap⟩ before d after hsplit
    cases before with
    | nil =>
      cases hsplit
      simpa [Cursor.isGap, Option.any_eq_true] using hc
    | cons e before =>
      cases hsplit
      exact hgap before d after rfl

theorem gapBefore_nil {rest : List Char} : GapBefore rest [] := by
  intro before c after hsplit
  simp at hsplit

namespace Cursor

/-- Skipping leaves out a gap, and nothing else. -/
theorem exists_gap (self : Cursor) :
    ∃ gap, self.rest = gap ++ self.skipGap.rest ∧ GapBefore self.skipGap.rest gap := by
  unfold skipGap
  generalize self.position = p
  induction self.rest generalizing p with
  | nil => exact ⟨[], rfl, gapBefore_nil⟩
  | cons c cs ih =>
    rw [afterGap]
    split
    next hgap =>
      obtain ⟨gap, hsplit, hbefore⟩ := ih p.nextColumn
      refine ⟨c :: gap, by rw [List.cons_append, ← hsplit], ?_⟩
      exact gapBefore_cons.mpr ⟨by rwa [← hsplit], hbefore⟩
    next => exact ⟨[], rfl, gapBefore_nil⟩

/-- A gap stays on its line. -/
theorem endsLine_of_isGap {c : Char} {cs later : List Char} (h : isGap c cs) :
    Position.endsLine c later = false := by
  have hcases : (c = ' ' ∨ c = '\t') ∨ c = '@' := by
    simp only [isGap, isBlank, Bool.or_eq_true, Bool.and_eq_true, beq_iff_eq] at h
    exact h.imp_right And.left
  rcases hcases with (rfl | rfl) | rfl <;> rfl

/-- Skipping leaves out a whole gap, if what comes after it is none. -/
theorem afterGap_of_gapBefore {gap rest : List Char} (hgap : GapBefore rest gap)
    (hrest : ∀ c cs, rest = c :: cs → isGap c cs = false) (p : Position) :
    afterGap p (gap ++ rest) = ⟨rest, p.after gap⟩ := by
  induction gap generalizing p with
  | nil =>
    cases rest with
    | nil => rfl
    | cons c cs => simp [afterGap, hrest c cs rfl, Position.after]
  | cons c gap ih =>
    obtain ⟨hc, hgap⟩ := gapBefore_cons.mp hgap
    rw [List.cons_append, afterGap, if_pos hc, ih hgap p.nextColumn, Position.after,
      endsLine_of_isGap hc]
    rfl

/-- The next token is the one that the text begins with after a gap, and only where
the rest of the text is a gap there is none. -/
theorem next_spans (self : Cursor) :
    self.next.1.kind = .eof ∧ GapBefore [] self.rest ∨
      ∃ gap text, self.rest = gap ++ (text ++ self.next.2.rest) ∧
        GapBefore (text ++ self.next.2.rest) gap ∧
        self.next.1.label.Spans text self.next.2.rest := by
  obtain ⟨gap, hsplit, hgap⟩ := self.exists_gap
  unfold next
  obtain ⟨p, hskip⟩ | ⟨c, cs, p, hskip, hnext⟩ := self.skipGap_cases
  · rw [hskip] at hsplit hgap ⊢
    exact .inl ⟨rfl, by rwa [hsplit, List.append_nil]⟩
  · have htext := Lexeme.read_text_append_rest c cs
    rw [hskip] at hsplit hgap ⊢
    rw [← htext] at hsplit hgap
    exact .inr ⟨gap, (Lexeme.read c cs).text, hsplit, hgap, Lexeme.read_spans hnext⟩

end Cursor

/-- A token of a text, with the characters that it spans and the gap before it. -/
structure Piece where
  gap : List Char
  label : Label
  text : List Char

/-- The characters of a piece, with the gap. -/
def Piece.chars (self : Piece) : List Char := self.gap ++ self.text

/-- A text cut into pieces. What comes after the last token is kept apart. -/
structure Division where
  pieces : List Piece
  last : List Char

namespace Division

/-- The text that has been cut. -/
def chars (self : Division) : List Char := self.pieces.flatMap Piece.chars ++ self.last

/-- The tokens without their places. -/
def labels (self : Division) : List Label := self.pieces.map Piece.label

/-- Between the tokens are gaps, and every token is as long as it can be. -/
structure Maximal (division : Division) : Prop where
  pieces : ∀ before piece after, division.pieces = before ++ piece :: after →
    GapBefore (piece.text ++ chars ⟨after, division.last⟩) piece.gap ∧
      piece.label.Spans piece.text (chars ⟨after, division.last⟩)
  last : GapBefore [] division.last

variable {piece : Piece} {pieces : List Piece} {last : List Char}

theorem chars_cons :
    chars ⟨piece :: pieces, last⟩ = piece.gap ++ (piece.text ++ chars ⟨pieces, last⟩) := by
  simp [chars, Piece.chars]

theorem maximal_nil : Maximal ⟨[], last⟩ ↔ GapBefore [] last := by
  refine ⟨Maximal.last, fun h => ⟨?_, h⟩⟩
  intro before piece after hsplit
  simp at hsplit

theorem maximal_cons :
    Maximal ⟨piece :: pieces, last⟩ ↔
      GapBefore (piece.text ++ chars ⟨pieces, last⟩) piece.gap ∧
        piece.label.Spans piece.text (chars ⟨pieces, last⟩) ∧ Maximal ⟨pieces, last⟩ := by
  constructor
  · intro h
    obtain ⟨hgap, hspans⟩ := h.pieces [] piece pieces rfl
    refine ⟨hgap, hspans, ?_, h.last⟩
    intro before other after hsplit
    exact h.pieces (piece :: before) other after (congrArg (piece :: ·) hsplit)
  · rintro ⟨hgap, hspans, hlater⟩
    refine ⟨?_, hlater.last⟩
    intro before other after hsplit
    cases before with
    | nil =>
      cases hsplit
      exact ⟨hgap, hspans⟩
    | cons first before =>
      cases hsplit
      exact hlater.pieces before other after rfl

theorem Maximal.text_ne_nil {self : Division} (h : self.Maximal) :
    ∀ piece ∈ self.pieces, piece.text ≠ [] := by
  intro piece hpiece
  obtain ⟨before, after, hsplit⟩ := List.append_of_mem hpiece
  exact (h.pieces before piece after hsplit).2.text_ne_nil

/-- A text is left at its first token when the gap before it is skipped. -/
theorem Maximal.afterGap_cons (h : Maximal ⟨piece :: pieces, last⟩) (p : Position) :
    Cursor.afterGap p (chars ⟨piece :: pieces, last⟩) =
      ⟨piece.text ++ chars ⟨pieces, last⟩, p.after piece.gap⟩ := by
  obtain ⟨hgap, hspans, _⟩ := maximal_cons.mp h
  rw [chars_cons]
  apply Cursor.afterGap_of_gapBefore hgap
  intro c cs hsplit
  obtain ⟨c', cs', hsplit', hnext, _⟩ := hspans.read_eq
  rw [hsplit] at hsplit'
  cases hsplit'
  exact hnext

theorem Maximal.afterGap_nil (h : Maximal ⟨[], last⟩) (p : Position) :
    Cursor.afterGap p (chars ⟨[], last⟩) = ⟨[], p.after last⟩ := by
  have hrest := Cursor.afterGap_of_gapBefore h.last (by simp) p
  rwa [List.append_nil] at hrest

/-- There is only one way to cut a text. -/
theorem Maximal.unique {self other : Division} (h : self.Maximal) (hother : other.Maximal)
    (hchars : self.chars = other.chars) : self = other := by
  obtain ⟨pieces, last⟩ := self
  obtain ⟨pieces', last'⟩ := other
  -- The text after the first gap is the same, so that it begins with the same token.
  have hafter : (Cursor.afterGap .start (chars ⟨pieces, last⟩)).rest =
      (Cursor.afterGap .start (chars ⟨pieces', last'⟩)).rest := by
    rw [hchars]
  induction pieces generalizing pieces' with
  | nil =>
    cases pieces' with
    | nil =>
      obtain rfl : last = last' := by simpa [chars] using hchars
      rfl
    | cons piece' later' =>
      rw [h.afterGap_nil, hother.afterGap_cons] at hafter
      obtain ⟨hnil, _⟩ := List.append_eq_nil_iff.mp hafter.symm
      exact absurd hnil (maximal_cons.mp hother).2.1.text_ne_nil
  | cons piece later ih =>
    cases pieces' with
    | nil =>
      rw [h.afterGap_cons, hother.afterGap_nil] at hafter
      obtain ⟨hnil, _⟩ := List.append_eq_nil_iff.mp hafter
      exact absurd hnil (maximal_cons.mp h).2.1.text_ne_nil
    | cons piece' later' =>
      rw [h.afterGap_cons, hother.afterGap_cons] at hafter
      obtain ⟨_, hspans, hlater⟩ := maximal_cons.mp h
      obtain ⟨_, hspans', hlater'⟩ := maximal_cons.mp hother
      obtain ⟨hlabel, htext, hrest⟩ := hspans.unique hspans' hafter
      have hgap : piece.gap = piece'.gap := by
        rwa [chars_cons, chars_cons, htext, hrest, List.append_cancel_right_eq] at hchars
      have hpiece : piece = piece' := by
        cases piece
        cases piece'
        simp_all
      have heq := ih hlater later' hlater' hrest (by rw [hrest])
      cases heq
      rw [hpiece]

end Division

/-- A run of the cursor up to the end cuts the text that it reads. -/
theorem Cursor.Yields.exists_division {self last : Cursor} {tokens : List Token}
    (h : self.Yields tokens last) (heof : last.next.1.kind = .eof) :
    ∃ division : Division, division.Maximal ∧ division.chars = self.rest ∧
      division.labels = tokens.map Token.label := by
  induction h with
  | nil self =>
    rcases self.next_spans with ⟨_, hgap⟩ | ⟨gap, text, _, _, hspans⟩
    · exact ⟨⟨[], self.rest⟩, Division.maximal_nil.mpr hgap, rfl, rfl⟩
    · exact absurd heof hspans.kind_ne_eof
  | @cons self rest last token tokens hnext hkind _ ih =>
    obtain ⟨⟨pieces, ending⟩, hmaximal, hchars, hlabels⟩ := ih heof
    have hspans := self.next_spans
    rw [hnext] at hspans
    rcases hspans with ⟨heof, _⟩ | ⟨gap, text, hsplit, hgap, hspans⟩
    · exact absurd heof hkind
    · rw [← hchars] at hsplit hgap hspans
      refine ⟨⟨⟨gap, token.label, text⟩ :: pieces, ending⟩, ?_, ?_, ?_⟩
      · exact Division.maximal_cons.mpr ⟨hgap, hspans, hmaximal⟩
      · rw [hsplit, Division.chars_cons]
      · exact congrArg (token.label :: ·) hlabels

namespace Script

theorem exists_division (source : String) :
    ∃ division : Division, division.Maximal ∧ division.chars = source.toList ∧
      division.labels = (ofText source).tokens.map Token.label := by
  obtain ⟨tokens, last, hyields, heof⟩ := (Cursor.ofText source).exists_yields
  rw [ofText_eq_of_yields hyields heof]
  exact hyields.exists_division heof

/-- However a text is cut, the pieces are its tokens. -/
theorem labels_of_maximal {source : String} {division : Division} (h : division.Maximal)
    (hchars : division.chars = source.toList) :
    division.labels = (ofText source).tokens.map Token.label := by
  obtain ⟨found, hfound, hfoundchars, hlabels⟩ := exists_division source
  rw [h.unique hfound (hchars.trans hfoundchars.symm), hlabels]

/-- The tokens of a text are a division of it into gaps and longest tokens, in which
no character is lost, and there is no other such division. -/
theorem ofText_unique_division (source : String) :
    ∃ division : Division, division.Maximal ∧ division.chars = source.toList ∧
      division.labels = (ofText source).tokens.map Token.label ∧
      (∀ piece ∈ division.pieces, piece.text ≠ []) ∧
      ∀ other : Division, other.Maximal → other.chars = source.toList → other = division := by
  obtain ⟨division, hmaximal, hchars, hlabels⟩ := exists_division source
  refine ⟨division, hmaximal, hchars, hlabels, hmaximal.text_ne_nil, ?_⟩
  intro other hother hotherchars
  exact hother.unique hmaximal (hotherchars.trans hchars.symm)

end Script

end SchemaScript
