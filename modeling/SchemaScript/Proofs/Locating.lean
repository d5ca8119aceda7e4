import Mathlib
import SchemaScript.Proofs.Completion

namespace SchemaScript

/-- The number of line breaks in a text. A carriage return and the line feed after it are
one line break. -/
def lineBreaks : List Char → Nat
  | [] => 0
  | '\r' :: '\n' :: rest => lineBreaks rest + 1
  | c :: rest => if c = '\n' ∨ c = '\r' then lineBreaks rest + 1 else lineBreaks rest

/-- The characters of a text after its last line break. With the number of line breaks they
tell the place after the text, without following it from the start. -/
def lastLine (text : List Char) : List Char := text.rtakeWhile fun c => c ≠ '\n' ∧ c ≠ '\r'

/-- The border between two texts lies inside of a line break. -/
def SplitsLineBreak (text rest : List Char) : Prop :=
  text.getLast? = some '\r' ∧ rest.head? = some '\n'

namespace SplitsLineBreak

variable {text later rest : List Char}

theorem of_append_left (h : SplitsLineBreak (text ++ later) rest) :
    SplitsLineBreak later rest ∨ later = [] ∧ SplitsLineBreak text rest := by
  by_cases hlater : later = []
  · subst hlater
    exact .inr ⟨rfl, by simpa using h⟩
  · obtain ⟨hlast, hhead⟩ := h
    rw [List.getLast?_append_of_ne_nil text hlater] at hlast
    exact .inl ⟨hlast, hhead⟩

theorem append_right (h : SplitsLineBreak text rest) : SplitsLineBreak text (rest ++ later) := by
  obtain ⟨hlast, hhead⟩ := h
  obtain ⟨rest, rfl⟩ := List.head?_eq_some_iff.mp hhead
  exact ⟨hlast, rfl⟩

end SplitsLineBreak

namespace Position

variable {text rest : List Char}

/-- Texts can be read one after the other, if no line break is cut in two. -/
theorem after_append (p : Position) (h : ¬ SplitsLineBreak text rest) :
    p.after (text ++ rest) = (p.after text).after rest := by
  induction text generalizing p with
  | nil => rfl
  | cons c text ih =>
    have hends : endsLine c (text ++ rest) = endsLine c text := by
      cases text with
      | cons d text => rfl
      | nil =>
        by_cases hc : c = '\r'
        · subst hc
          have hhead : (rest.head? != some '\n') = true :=
            bne_iff_ne.mpr fun hhead => h ⟨rfl, hhead⟩
          simp [endsLine, hhead]
        · have hne : (c == '\r') = false := beq_eq_false_iff_ne.mpr hc
          simp [endsLine, hne]
    have htail : ¬ SplitsLineBreak text rest := by
      rintro ⟨hlast, hhead⟩
      exact h ⟨by simp [List.getLast?_cons, hlast], hhead⟩
    rw [List.cons_append, after, after, hends]
    split
    · exact ih _ htail
    · exact ih _ htail

theorem after_line (p : Position) (text : List Char) :
    (p.after text).line = p.line + lineBreaks text := by
  fun_induction lineBreaks text generalizing p with
  | case1 => rfl
  | case2 rest ih =>
    have hpair : p.after ('\r' :: '\n' :: rest) = p.nextColumn.nextLine.after rest := by
      simp [after, endsLine]
    rw [hpair, ih]
    simp only [nextLine, nextColumn]
    omega
  | case3 c rest hpair hbreak ih =>
    have hends : endsLine c rest := by
      rcases hbreak with rfl | rfl
      · rfl
      · have hhead : rest.head? ≠ some '\n' := by
          intro hhead
          obtain ⟨later, rfl⟩ := List.head?_eq_some_iff.mp hhead
          exact hpair later rfl rfl
        simpa [endsLine] using hhead
    rw [after, if_pos hends, ih]
    simp only [nextLine]
    omega
  | case4 c rest hpair hbreak ih =>
    have hends : ¬ endsLine c rest := by
      rw [not_or] at hbreak
      simp [endsLine, hbreak]
    rw [after, if_neg hends, ih]
    rfl

/-- A line break leads to the first column. -/
theorem after_concat_column (p : Position) {c : Char} (h : c = '\n' ∨ c = '\r') :
    (p.after (text ++ [c])).column = 1 := by
  induction text generalizing p with
  | nil =>
    have hends : endsLine c [] := by rcases h with rfl | rfl <;> rfl
    rw [List.nil_append, after, if_pos hends]
    rfl
  | cons d text ih =>
    rw [List.cons_append, after]
    split
    · exact ih _
    · exact ih _

theorem after_start_column (text : List Char) :
    (start.after text).column = 1 + (lastLine text).length := by
  induction text using List.reverseRecOn with
  | nil => rfl
  | append_singleton text c ih =>
    by_cases hbreak : c = '\n' ∨ c = '\r'
    · have hline : lastLine (text ++ [c]) = [] :=
        List.rtakeWhile_concat_neg _ _ _ (by simpa [or_iff_not_imp_left] using hbreak)
      rw [after_concat_column _ hbreak, hline]
      rfl
    · rw [not_or] at hbreak
      have hline : lastLine (text ++ [c]) = lastLine text ++ [c] :=
        List.rtakeWhile_concat_pos _ _ _ (by simpa using hbreak)
      have hwhole : ¬ SplitsLineBreak text [c] := by
        rintro ⟨_, hhead⟩
        exact hbreak.1 (Option.some.inj hhead)
      have hends : ¬ endsLine c [] := by simp [endsLine, hbreak]
      rw [after_append _ hwhole, hline, after, if_neg hends, after, nextColumn, ih,
        List.length_append, List.length_singleton]
      exact Nat.add_assoc ..

end Position

section Borders

variable {gap text rest : List Char}

theorem GapBefore.ne_of_mem {c : Char} (h : GapBefore rest gap) (hc : c ∈ gap) :
    c ≠ '\n' ∧ c ≠ '\r' := by
  obtain ⟨before, after, rfl⟩ := List.append_of_mem hc
  rcases h before c after rfl with hblank | ⟨rfl, _⟩
  · have hcases : c = ' ' ∨ c = '\t' := by simpa [isBlank] using hblank
    rcases hcases with rfl | rfl <;> decide
  · decide

/-- A gap neither ends inside of a line break nor begins there. -/
theorem GapBefore.not_splitsLineBreak (h : GapBefore rest gap) (text : List Char) :
    ¬ SplitsLineBreak gap text ∧ ¬ SplitsLineBreak text gap := by
  constructor
  · rintro ⟨hlast, _⟩
    exact (h.ne_of_mem (List.mem_of_getLast? hlast)).2 rfl
  · rintro ⟨_, hhead⟩
    exact (h.ne_of_mem (List.mem_of_mem_head? hhead)).1 rfl

/-- No token ends inside of a line break. -/
theorem Label.Spans.not_splitsLineBreak {self : Label} (h : self.Spans text rest) :
    ¬ SplitsLineBreak text rest := by
  have hfree (hfree : '\r' ∉ text) : ¬ SplitsLineBreak text rest :=
    fun hsplits => hfree (List.mem_of_getLast? hsplits.1)
  cases h with
  | lineFeed | marker => exact hfree (by decide)
  | returnAndFeed =>
    rintro ⟨hlast, _⟩
    simp at hlast
  | carriageReturn hrest => exact fun hsplits => hrest hsplits.2
  | keyword hword =>
    simp only [List.mem_cons, Prod.mk.injEq, List.not_mem_nil, or_false] at hword
    rcases hword with ⟨rfl, rfl⟩ | ⟨rfl, rfl⟩ | ⟨rfl, rfl⟩ <;> exact hfree (by decide)
  | identifier hname => exact hfree (not_mem_of_isWord (isWord_of_isName hname) (by decide))
  | attributeName hname =>
    have hname : '\r' ∉ _ := not_mem_of_isWord hname (by decide)
    exact hfree (List.not_mem_cons_of_ne_of_not_mem (by decide) hname)
  | number _ hdigits => exact hfree fun hmem => absurd (hdigits _ hmem) (by decide)
  | @closed kind quote literal _ hquote =>
    rintro ⟨hlast, _⟩
    have hlast : some quote = some '\r' := by
      rwa [← List.cons_append, List.getLast?_concat] at hlast
    cases hlast
    simp at hquote
  | unclosed =>
    rintro ⟨_, hhead⟩
    cases hhead
  | punctuation hkind =>
    refine hfree fun hmem => ?_
    obtain rfl := List.mem_singleton.mp hmem
    simp at hkind
  | stray hc =>
    refine hfree fun hmem => ?_
    obtain rfl := List.mem_singleton.mp hmem
    exact hc.1 (by decide)

end Borders

namespace Division

variable {front back : List Piece} {last rest : List Char}

theorem chars_append :
    chars ⟨front ++ back, last⟩ = front.flatMap Piece.chars ++ chars ⟨back, last⟩ := by
  simp [chars]

/-- Pieces lead to the place to which their characters lead. -/
theorem Maximal.stopFrom_eq (h : Maximal ⟨front ++ back, last⟩) (p : Position) :
    stopFrom p front = p.after (front.flatMap Piece.chars) := by
  induction front generalizing p with
  | nil => rfl
  | cons piece front ih =>
    rw [List.cons_append] at h
    obtain ⟨hgap, hspans, hrest⟩ := maximal_cons.mp h
    have htext : ¬ SplitsLineBreak piece.text (front.flatMap Piece.chars) := by
      intro hsplits
      refine hspans.not_splitsLineBreak ?_
      rw [chars_append]
      exact hsplits.append_right
    calc stopFrom p (piece :: front)
        = stopFrom (piece.stop p) front := rfl
      _ = ((p.after piece.gap).after piece.text).after (front.flatMap Piece.chars) :=
          ih hrest (piece.stop p)
      _ = p.after (piece.gap ++ (piece.text ++ front.flatMap Piece.chars)) := by
          rw [Position.after_append _ (hgap.not_splitsLineBreak _).1,
            Position.after_append _ htext]
      _ = p.after ((piece :: front).flatMap Piece.chars) := by
          rw [List.flatMap_cons, Piece.chars, List.append_assoc]

/-- A token stands at the place to which the characters before it lead. -/
theorem Maximal.after_before (h : Maximal ⟨front ++ back, last⟩) :
    (stopFrom .start front).after (gapOf back last) =
      Position.start.after (before ⟨front ++ back, last⟩ front.length) := by
  rw [before_length, Position.after_append _ (h.gapBefore_nil.not_splitsLineBreak _).2,
    h.stopFrom_eq]

theorem Maximal.not_splitsLineBreak_before (h : Maximal ⟨front ++ back, last⟩)
    (hrest : chars ⟨back, last⟩ = gapOf back last ++ rest) :
    ¬ SplitsLineBreak (before ⟨front ++ back, last⟩ front.length) rest := by
  rw [before_length]
  intro hsplits
  rcases hsplits.of_append_left with hgap | ⟨hnil, hfront⟩
  · exact (h.gapBefore_nil.not_splitsLineBreak rest).1 hgap
  -- Nothing is skipped, so that the border is right behind a token or at the beginning.
  rcases List.eq_nil_or_concat' front with rfl | ⟨front, piece, rfl⟩
  · cases hfront.1
  rw [List.append_assoc] at h
  obtain ⟨_, hspans⟩ := h.pieces front piece back rfl
  rw [List.flatMap_append, List.flatMap_singleton, Piece.chars, ← List.append_assoc] at hfront
  rcases hfront.of_append_left with htext | ⟨htext, _⟩
  · rw [hnil, List.nil_append] at hrest
    exact hspans.not_splitsLineBreak (hrest ▸ htext)
  · exact hspans.text_ne_nil htext

/-- The token of an index comes after as many pieces. -/
theorem exists_pieces_before {self : Division} {index : Nat} {token : Token}
    (h : self.script.toList[index]? = some token) :
    ∃ front back, self.pieces = front ++ back ∧ front.length = index ∧
      token.position = (stopFrom .start front).after (gapOf back self.last) ∧
      (token.kind = .eof ∧ back = [] ∨
        ∃ piece later, back = piece :: later ∧ token.label = piece.label) := by
  obtain ⟨pieces, last⟩ := self
  have hlt : index < (script ⟨pieces, last⟩).toList.length := (List.getElem?_eq_some_iff.mp h).1
  have hle : index ≤ pieces.length := by
    simp only [script, Script.toList, List.length_append, tokensFrom_length,
      List.length_singleton] at hlt
    omega
  have hlength : (pieces.take index).length = index := by simp [hle]
  refine ⟨pieces.take index, pieces.drop index, by simp, hlength, ?_⟩
  have htokens : (script ⟨pieces, last⟩).toList =
      tokensFrom .start (pieces.take index) ++
        (tokensFrom (stopFrom .start (pieces.take index)) (pieces.drop index) ++
          [(script ⟨pieces, last⟩).eof]) := by
    rw [← List.append_assoc, ← tokensFrom_append, List.take_append_drop]
    rfl
  rw [htokens, List.getElem?_append_right (by simp [hle])] at h
  cases hback : pieces.drop index with
  | nil =>
    have hfront : pieces.take index = pieces := by
      rw [← List.append_nil (pieces.take index), ← hback, List.take_append_drop]
    obtain rfl : (script ⟨pieces, last⟩).eof = token := by
      simpa [hback, tokensFrom, hle] using h
    exact ⟨by rw [hfront]; rfl, .inl ⟨rfl, rfl⟩⟩
  | cons piece later =>
    obtain rfl : piece.token (stopFrom .start (pieces.take index)) = token := by
      simpa [hback, tokensFrom, hle] using h
    exact ⟨rfl, .inr ⟨piece, later, rfl, rfl⟩⟩

end Division

/-- What stands at a place of a text is the token, or nothing if the text has ended, and
the place is counted in the text before it. -/
structure Token.StandsBetween (token : Token) (before rest : List Char) : Prop where
  ended : token.kind = .eof → rest = []
  begins : token.kind ≠ .eof → ∃ text later, rest = text ++ later ∧ token.label.Spans text later
  line : token.position.line = 1 + lineBreaks before
  column : token.position.column = 1 + (lastLine before).length
  whole : ¬ SplitsLineBreak before rest

theorem Division.Maximal.standsBetween {self : Division} {index : Nat} {token : Token}
    (h : self.Maximal) (htoken : self.script.toList[index]? = some token) :
    ∃ rest, self.chars = self.before index ++ rest ∧
      token.StandsBetween (self.before index) rest := by
  obtain ⟨front, back, hpieces, rfl, hposition, hbegins⟩ := exists_pieces_before htoken
  obtain ⟨pieces, last⟩ := self
  obtain rfl : pieces = front ++ back := hpieces
  have hrest : ∃ rest, chars ⟨back, last⟩ = gapOf back last ++ rest ∧
      (token.kind = .eof → rest = []) ∧
      (token.kind ≠ .eof → ∃ text later, rest = text ++ later ∧ token.label.Spans text later) := by
    rcases hbegins with ⟨hkind, rfl⟩ | ⟨piece, later, rfl, hlabel⟩
    · exact ⟨[], by simp [chars, gapOf], fun _ => rfl, absurd hkind⟩
    · obtain ⟨_, hspans⟩ := h.pieces front piece later rfl
      rw [← hlabel] at hspans
      exact ⟨_, chars_cons, fun hkind => absurd hkind hspans.kind_ne_eof,
        fun _ => ⟨_, _, rfl, hspans⟩⟩
  obtain ⟨rest, hrest, hended, hbegins⟩ := hrest
  rw [h.after_before] at hposition
  refine ⟨rest, ?_, hended, hbegins, ?_, ?_, h.not_splitsLineBreak_before hrest⟩
  · rw [chars_append, hrest, before_length, List.append_assoc]
  · rw [hposition, Position.after_line]
    rfl
  · rw [hposition, Position.after_start_column]

/-- Places are exact. Every token of a text, the end included, stands in the line and
the column that are counted in the text before it, whatever was skipped or read
there, no token begins inside of a line break, and no two tokens stand at the same
place. -/
theorem Script.toList_located (source : String) :
    ∃ division : Division, division.Maximal ∧ division.chars = source.toList ∧
      division.labels = (ofText source).tokens.map Token.label ∧
      (∀ index token, (ofText source).toList[index]? = some token →
        ∃ rest, source.toList = division.before index ++ rest ∧
          token.StandsBetween (division.before index) rest) ∧
      (ofText source).toList.Pairwise fun token later => token.position.Before later.position := by
  obtain ⟨division, hmaximal, hchars, hlabels⟩ := exists_division source
  refine ⟨division, hmaximal, hchars, hlabels, fun index token htoken => ?_,
    toList_increasing source⟩
  rw [hmaximal.ofText_eq hchars] at htoken
  rw [← hchars]
  exact hmaximal.standsBetween htoken

end SchemaScript
